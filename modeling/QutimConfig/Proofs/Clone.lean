/-
The group cursor over interleaved operations (config.cpp:760-768,
825-837, 1025-1120).

# Coherence

`Config::group(p)` hands out a clone `d` of the level `beginGroup(p)`
reaches. The clone keeps tracking its parent while `c.beginGroup(p)`
still reaches `d`'s level and changes nothing (`Coherent`). Right after
`group(p)`, on a cursor whose first atom is a writable Map, it does:
entering `p` a second time replays the first walk on the heap it left
(`group_coherent`).

# Walks that change nothing

A walk that ends on the heap it started from changed nothing at any
step (`childPath_quiet_cons`). Its levels are the layers' nodes along
the path (`childPath_quiet_atoms`). It is walked the same way over any
heap that shows each layer's nodes along the path alike (`WalkKept`,
`childPath_walkKept`). An operation on a level such a walk reached
keeps the nodes below that level, so it keeps the walk
(`walkKept_of_level`).

# Operations on a level

`value`, `setValue` and `remove` on a level keep every node below it and
change each of its atoms only along the key's path (`LevelOp`,
`value_levelOp`, `setValue_levelOp`, `remove_levelOp`). Through the
clone that is below the parent's level, and coherence is kept
(`Coherent.keep_derived`). Through the parent at a key whose path parts
from `p`, the walk along `p` meets none of the changed nodes
(`Coherent.keep_value`, `Coherent.keep_setValue`, `Coherent.keep_remove`).
-/
import QutimConfig.Proofs.Navigation

namespace QutimConfig

open Heap

-- ============================================ walks that change nothing

section Quiet

variable {h h'' : Heap}

/-- A step that acts on region `t` only, after which region `t` is as it
was and no region was added, changed nothing. -/
theorem Heap.eq_of_local {h₁ : Heap} {t : Nat} (hl : h.Local h₁ t) (ht : h₁.trees t = h.trees t)
    (hc : h₁.count ≤ h.count) : h₁ = h := by
  obtain ⟨trees, count⟩ := h
  obtain ⟨trees₁, count₁⟩ := h₁
  refine Heap.mk.injEq .. ▸ ⟨funext fun u => ?_, le_antisymm hc hl.grows.count⟩
  by_cases hu : u = t
  · subst hu
    exact ht
  · exact hl.frame u hu

/-- The first callback of `ConfigLevel::map`, in a map that ends on the
heap it started from, ended on it too: the later callbacks leave its
region alone. -/
theorem mapAtoms_quiet_cons {cb : AtomCallback} (hok : CallbackOK cb) {x : Ptr} {xs ys : List Ptr}
    {first : Bool} (hh : h.Closed) (hv : ∀ y ∈ x :: xs, h.Valid y)
    (hn : ((x :: xs).map Ptr.tree).Nodup) (e : mapAtoms cb first (x :: xs) h = some (ys, h)) :
    ∃ r ys', cb x ((h.atom x).readOnly || !first) h = some (r, h) ∧
      mapAtoms cb false xs h = some (ys', h) ∧ ys = r.toList ++ ys' := by
  simp only [mapAtoms, Option.bind_eq_bind, Option.bind_eq_some, Option.pure_def,
    Option.some.injEq] at e
  obtain ⟨⟨r, h₁⟩, e₁, ⟨ys', h₂⟩, e₂, he⟩ := e
  obtain ⟨rfl, rfl⟩ := Prod.mk.inj he
  obtain ⟨hl, -⟩ := hok x _ _ r h₁ hh (hv x (.head _)) e₁
  obtain ⟨-, hg, hfr, -⟩ := mapAtoms_ok hok xs false hl.closed
    (fun y hy => (hv y (.tail _ hy)).grow hl.grows) e₂
  obtain rfl := Heap.eq_of_local hl (hfr x.tree (List.nodup_cons.1 hn).1).symm hg.count
  exact ⟨r, ys', e₁, e₂, rfl⟩

/-- `child(name)` that answered a node and changed nothing found the
entry: creating one allocates. -/
theorem Tree.lookup_of_child_quiet {T : Tree} {a c : Nat} {name : String}
    (e : T.child a name = some (some c, T)) : (T.entries a).lookup name = some c := by
  rcases Tree.child_cases e with ⟨c', hc, -, hl⟩ | ⟨h, -⟩ | ⟨-, -, -, hT⟩
  · rwa [Option.some.inj hc]
  · cases h
  · have := congrArg Tree.next hT
    simp at this

theorem Heap.lookup_append_of {x y : Ptr} {s : List String} (e : h.lookup x s = some y)
    (t : List String) : h.lookup x (s ++ t) = h.lookup y t := by
  obtain ⟨c, hc, rfl⟩ := lookup_some e
  simp [Heap.lookup, Tree.lookup_append, hc]

theorem Heap.lookup_single (x : Ptr) (n : String) :
    h.lookup x [n] = ((h.atom x).entries.lookup n).map (Ptr.mk x.tree) := by
  rw [show (h.atom x).entries = (h.trees x.tree).entries x.addr from rfl]
  simp only [Heap.lookup, Tree.lookup]
  cases ((h.trees x.tree).entries x.addr).lookup n <;> rfl

/-- A `child(name)` callback that changed nothing answered the atom's
entry, if anything. -/
theorem childCallback_quiet {n : String} {x : Ptr} {ro : Bool} {r : Option Ptr}
    (e : childCallback n x ro h = some (r, h)) : ∀ y ∈ r, h.lookup x [n] = some y := by
  unfold childCallback at e
  split_ifs at e
  · simp only [Option.some.injEq, Prod.mk.injEq] at e
    obtain ⟨rfl, -⟩ := e
    exact fun _ hy => nomatch hy
  · simp only [Heap.child, Option.map_eq_some', Prod.mk.injEq] at e
    obtain ⟨⟨r₀, T⟩, e, rfl, hT⟩ := e
    obtain rfl : T = h.trees x.tree := by
      simpa [Heap.update] using congrArg (fun h => h.trees x.tree) hT
    intro y hy
    simp only [Option.mem_def, Option.map_eq_some'] at hy
    obtain ⟨c, rfl, rfl⟩ := hy
    simp [Heap.lookup, Tree.lookup, Tree.lookup_of_child_quiet e]

theorem mapAtoms_child_quiet {n : String} : ∀ {xs ys : List Ptr} {first : Bool}, h.Closed →
    (∀ x ∈ xs, h.Valid x) → (xs.map Ptr.tree).Nodup →
    mapAtoms (childCallback n) first xs h = some (ys, h) → ∀ y ∈ ys, ∃ x ∈ xs, h.lookup x [n] = some y
  | [], ys, _, _, _, _, e => by
      simp only [mapAtoms, Option.some.injEq, Prod.mk.injEq] at e
      obtain ⟨rfl, -⟩ := e
      exact fun _ hy => absurd hy (List.not_mem_nil _)
  | x :: xs, ys, first, hh, hv, hn, e => by
      obtain ⟨r, ys', e₁, e₂, rfl⟩ := mapAtoms_quiet_cons (childCallback_ok n) hh hv hn e
      intro y hy
      rcases List.mem_append.1 hy with hy | hy
      · exact ⟨x, .head _, childCallback_quiet e₁ y (by simpa using hy)⟩
      · obtain ⟨x', hx', hl⟩ := mapAtoms_child_quiet hh (fun y hy => hv y (.tail _ hy))
          (List.nodup_cons.1 hn).2 e₂ y hy
        exact ⟨x', .tail _ hx', hl⟩

/-- A `ConfigLevel::child(name)` that changed nothing reached, from each
layer it kept, the layer's entry under `name`. -/
theorem child_quiet_atoms {n : String} {l l₁ : ConfigLevel} (hh : h.Closed) (hl : l.OK h)
    (e : l.child n h = some (l₁, h)) : ∀ y ∈ l₁.atoms, ∃ x ∈ l.atoms, h.lookup x [n] = some y := by
  simp only [ConfigLevel.child, ConfigLevel.map, Option.map_eq_some', Prod.mk.injEq] at e
  obtain ⟨⟨ys, h₁⟩, e, rfl, rfl⟩ := e
  exact mapAtoms_child_quiet hh hl.valid hl.separate e

/-- A walk that ends on the heap it started from changed nothing at its
first step: the rest of the walk rewrites only nodes at or past that
step's level, so the step replays on the final heap. -/
theorem childPath_quiet_cons {n : String} {ns : List String} {l l' : ConfigLevel} (hh : h.Closed)
    (hl : l.OK h) (e : l.childPath (n :: ns) h = some (l', h)) :
    ∃ l₁, l.child n h = some (l₁, h) ∧ l₁.childPath ns h = some (l', h) := by
  simp only [ConfigLevel.childPath, Option.bind_eq_bind, Option.bind_eq_some] at e
  obtain ⟨⟨l₁, h₁⟩, e₁, e₂⟩ := e
  have s₁ := ConfigLevel.map_step (childCallback_ok n) hl hh e₁
  have e₁' := childPath_replay [n] hh hl
    (by simp [ConfigLevel.childPath, e₁] : l.childPath [n] h = some (l₁, h₁))
    (childPath_rises ns s₁.closed s₁.ok e₂).1
  simp only [ConfigLevel.childPath, e₁, Option.bind_eq_bind, Option.some_bind, Option.some.injEq,
    Prod.mk.injEq] at e₁'
  obtain ⟨-, rfl⟩ := e₁'
  exact ⟨l₁, e₁, e₂⟩

theorem childPath_quiet_append : ∀ (s : List String) {r : List String} {l l' : ConfigLevel},
    h.Closed → l.OK h → l.childPath (s ++ r) h = some (l', h) →
      ∃ lₛ, l.childPath s h = some (lₛ, h) ∧ lₛ.childPath r h = some (l', h)
  | [], _, l, _, _, _, e => ⟨l, rfl, e⟩
  | n :: s, r, l, l', hh, hl, e => by
      obtain ⟨l₁, e₁, e₂⟩ := childPath_quiet_cons hh hl e
      obtain ⟨lₛ, e₃, e₄⟩ :=
        childPath_quiet_append s hh (ConfigLevel.map_step (childCallback_ok n) hl hh e₁).ok e₂
      exact ⟨lₛ, by simp [ConfigLevel.childPath, e₁, e₃], e₄⟩

/-- Each atom a walk that changed nothing reaches is a layer's node along
the path. -/
theorem childPath_quiet_atoms : ∀ (s : List String) {l l' : ConfigLevel}, h.Closed → l.OK h →
    l.childPath s h = some (l', h) → ∀ y ∈ l'.atoms, ∃ x ∈ l.atoms, h.lookup x s = some y
  | [], l, l', _, _, e => by
      simp only [ConfigLevel.childPath, Option.some.injEq, Prod.mk.injEq] at e
      obtain ⟨rfl, -⟩ := e
      exact fun y hy => ⟨y, hy, lookup_nil h y⟩
  | n :: s, l, l', hh, hl, e => by
      obtain ⟨l₁, e₁, e₂⟩ := childPath_quiet_cons hh hl e
      intro y hy
      obtain ⟨x₁, hx₁, hl₁⟩ := childPath_quiet_atoms s hh
        (ConfigLevel.map_step (childCallback_ok n) hl hh e₁).ok e₂ y hy
      obtain ⟨x, hx, hlx⟩ := child_quiet_atoms hh hl e₁ x₁ hx₁
      exact ⟨x, hx, (Heap.lookup_append_of hlx s).trans hl₁⟩

/-- `Config::beginGroup(name)` that changed nothing: a walk and a
conversion to Maps that each changed nothing. -/
theorem beginGroup_quiet {name : String} {c c' : ConfigPrivate} (hc : c.OK h) (hh : h.Closed)
    (e : beginGroup name c h = some (c', h)) :
    ∃ l₁ L, parseNames name ≠ [] ∧ c.current.childPath (parseNames name) h = some (l₁, h) ∧
      l₁.convert .map h = some (L, h) ∧ c' = c.push L := by
  simp only [beginGroup, Option.bind_eq_bind, Option.bind_eq_some, Option.guard_eq_some,
    Option.pure_def, Option.some.injEq, Prod.mk.injEq] at e
  obtain ⟨u, hg, u', hg', ⟨l₁, h₁⟩, e₁, ⟨L, h₂⟩, e₂, rfl, rfl⟩ := e
  have hn : parseNames name ≠ [] := fun hc => by simp [hc] at hg'
  rw [ConfigLevel.childNames, if_neg hn] at e₁
  have s₁ := ConfigLevel.childPath_step _ hc.current hh e₁
  have e₁' := childPath_replay _ hh hc.current e₁
    (ConfigLevel.map_rises (convertCallback_ok .map) (convertCallback_rises .map) s₁.closed s₁.ok e₂).1
  obtain rfl : h₁ = h₂ := (Prod.mk.inj (Option.some.inj (e₁.symm.trans e₁'))).2
  exact ⟨l₁, L, hn, e₁, e₂, rfl⟩

end Quiet

-- ========================================== replaying over a kept walk

section WalkKept

variable {h h'' : Heap}

/-- `h''` shows every layer's nodes along `G` as `h` does: from each atom
of `xs`, each prefix of `G` reaches the same node, alike for
`convert(Map)`. -/
def Heap.WalkKept (h h'' : Heap) (G : List String) (xs : List Ptr) : Prop :=
  ∀ x ∈ xs, ∀ t, t <+: G → h''.lookup x t = h.lookup x t ∧
    ∀ z, h.lookup x t = some z → (h''.atom z).SameKind (h.atom z)

theorem Atom.SameKind.of_eq {x y : Atom} (h : x = y) : x.SameKind y := h ▸ ⟨rfl, rfl⟩

theorem Heap.WalkKept.sameEntry {n : String} {ns : List String} {xs : List Ptr}
    (hw : h.WalkKept h'' (n :: ns) xs) {x : Ptr} (hx : x ∈ xs) :
    (h''.atom x).SameEntry n (h.atom x) := by
  refine ⟨(hw x hx [] (List.nil_prefix)).2 x rfl, ?_⟩
  have e := (hw x hx [n] ⟨ns, rfl⟩).1
  rw [Heap.lookup_single, Heap.lookup_single] at e
  exact Option.map_injective (fun _ _ h => by cases h; rfl) e

theorem Heap.WalkKept.next {n : String} {ns : List String} {xs ys : List Ptr}
    (hw : h.WalkKept h'' (n :: ns) xs) (hys : ∀ y ∈ ys, ∃ x ∈ xs, h.lookup x [n] = some y) :
    h.WalkKept h'' ns ys := by
  intro y hy t ht
  obtain ⟨x, hx, hl⟩ := hys y hy
  have hl'' : h''.lookup x [n] = some y := (hw x hx [n] ⟨ns, rfl⟩).1.trans hl
  rw [← Heap.lookup_append_of hl t, ← Heap.lookup_append_of hl'' t]
  exact hw x hx (n :: t) ((List.prefix_cons_inj n).2 ht)

/-- A walk that changed nothing is walked the same way over a heap that
shows each layer's nodes along the path alike. -/
theorem childPath_walkKept : ∀ (ns : List String) {l l' : ConfigLevel}, h.Closed → l.OK h →
    l.childPath ns h = some (l', h) → h.WalkKept h'' ns l.atoms → l.childPath ns h'' = some (l', h'')
  | [], l, l', _, _, e, _ => by
      simp only [ConfigLevel.childPath, Option.some.injEq, Prod.mk.injEq, and_true] at e ⊢
      exact e
  | n :: ns, l, l', hh, hl, e, hw => by
      obtain ⟨l₁, e₁, e₂⟩ := childPath_quiet_cons hh hl e
      have e₁'' : l.child n h'' = some (l₁, h'') := ConfigLevel.map_replay (childCallback_ok n)
        (childCallback_replays n) hh hl e₁ fun x hx => hw.sameEntry hx
      have s₁ := ConfigLevel.map_step (childCallback_ok n) hl hh e₁
      simp only [ConfigLevel.childPath, e₁'', Option.bind_eq_bind, Option.some_bind]
      exact childPath_walkKept ns hh s₁.ok e₂ (hw.next (child_quiet_atoms hh hl e₁))

/-- `Config::beginGroup(name)` that changed nothing, again over a heap
that shows each layer's nodes along the path alike: the same level, the
heap unchanged. -/
theorem beginGroup_walkKept {name : String} {c c' : ConfigPrivate} (hc : c.OK h) (hh : h.Closed)
    (e : beginGroup name c h = some (c', h)) (hw : h.WalkKept h'' (parseNames name) c.current.atoms) :
    beginGroup name c h'' = some (c', h'') := by
  obtain ⟨l₁, L, hn, e₁, e₂, rfl⟩ := beginGroup_quiet hc hh e
  have s₁ := ConfigLevel.childPath_step _ hc.current hh e₁
  have e₂'' : l₁.convert .map h'' = some (L, h'') :=
    ConfigLevel.map_replay (convertCallback_ok .map) convertCallback_map_replays hh s₁.ok e₂
      fun y hy => by
        obtain ⟨x, hx, hl⟩ := childPath_quiet_atoms _ hh hc.current e₁ y hy
        exact (hw x hx _ (List.prefix_refl _)).2 y hl
  have hname : name ≠ "" := fun h => hn (h ▸ parseNames_empty)
  simp [beginGroup, hname, hn, ConfigLevel.childNames, childPath_walkKept _ hh hc.current e₁ hw, e₂'']

end WalkKept

-- ====================================== operations below a quiet walk

section Level

variable {h h'' : Heap}

/-- A path that takes a step ends strictly below where it starts. -/
theorem Tree.lt_of_lookup_cons {T : Tree} {a z : Nat} {n : String} {s : List String}
    (hT : T.Closed) (ha : a < T.next) (e : T.lookup a (n :: s) = some z) : a < z := by
  simp only [Tree.lookup, Option.bind_eq_some] at e
  obtain ⟨y, hy, e⟩ := e
  have hyn := hT.bound a ha y (Tree.entry_child hy)
  exact lt_of_lt_of_le (hT.above a ha y (Tree.entry_child hy)) ((Tree.lookup_reach e).bound hT hyn).1

/-- A region that kept every node below `z` walks each prefix of a path
to `z` as before. -/
theorem Tree.lookup_prefix_congr {T T'' : Tree} {a z : Nat} {s : List String} (hT : T.Closed)
    (ha : a < T.next) (hbelow : ∀ y < z, T''.cells y = T.cells y) (e : T.lookup a s = some z) :
    ∀ t, t <+: s → T''.lookup a t = T.lookup a t := by
  intro t
  induction t using List.reverseRecOn with
  | nil => exact fun _ => rfl
  | append_singleton t n ih =>
      rintro ⟨r, rfl⟩
      rw [List.append_assoc, Tree.lookup_append] at e
      obtain ⟨y, hy, e⟩ := Option.bind_eq_some.1 e
      have hyz : y < z := Tree.lt_of_lookup_cons hT ((Tree.lookup_reach hy).bound hT ha).2 e
      rw [Tree.lookup_snoc, Tree.lookup_snoc, ih ⟨n :: r, by simp⟩, hy]
      simp only [Option.some_bind, Tree.entries, hbelow y hyz]

/-- An operation from a level that a walk changing nothing reached, which
rewrote nothing below the atoms `E` it kept of that level and shows the
layers' nodes along `G` from them alike, keeps the whole walk along
`s ++ G`: before the level the walk passes nodes below it, and a region
without an atom of `E` is kept whole. -/
theorem walkKept_of_level {s G : List String} {l lₛ : ConfigLevel} {E : List Ptr} (hh : h.Closed)
    (hl : l.OK h) (e : l.childPath s h = some (lₛ, h)) (hE : E.Sublist lₛ.atoms)
    (hf : h.FixedBelow h'' E) (hg : h.WalkKept h'' G E) : h.WalkKept h'' (s ++ G) l.atoms := by
  have sₛ := ConfigLevel.childPath_step s hl hh e
  intro x hx t ht
  by_cases hz : ∃ z ∈ E, z.tree = x.tree
  · obtain ⟨z, hzE, hzt⟩ := hz
    obtain ⟨x', hx', hxz⟩ := childPath_quiet_atoms s hh hl e z (hE.subset hzE)
    obtain rfl : x = x' :=
      List.inj_on_of_nodup_map hl.separate hx hx' (hzt.symm.trans (lookup_tree hxz))
    obtain ⟨zc, hzc, rfl⟩ := lookup_some hxz
    have hbelow : ∀ y < zc, (h''.trees x.tree).cells y = (h.trees x.tree).cells y := fun y hy =>
      hf ⟨x.tree, y⟩ ⟨(hl.valid x hx).1, lt_trans hy (sₛ.ok.valid _ (hE.subset hzE)).2⟩
        fun y' hy' ht' => by
          obtain rfl := List.inj_on_of_nodup_map ((hE.map Ptr.tree).nodup sₛ.ok.separate) hy' hzE ht'
          exact hy
    have hpre := Tree.lookup_prefix_congr (hh x.tree) (hl.valid x hx).2 hbelow hzc
    rcases List.prefix_or_prefix_of_prefix ht (List.prefix_append s G) with hts | ⟨t', rfl⟩
    · -- along `s`: nodes below `z`, and `z` itself
      refine ⟨by simp only [Heap.lookup, hpre t hts], fun z' hz' => ?_⟩
      obtain ⟨y, hy, rfl⟩ := lookup_some hz'
      obtain ⟨r, rfl⟩ := hts
      cases r with
      | nil =>
          obtain rfl : y = zc := Option.some.inj (hy.symm.trans (by simpa using hzc))
          exact (hg _ hzE [] List.nil_prefix).2 _ (lookup_nil _ _)
      | cons n r =>
          rw [Tree.lookup_append, hy, Option.some_bind] at hzc
          exact Atom.SameKind.of_eq
            (hbelow y (Tree.lt_of_lookup_cons (hh _) ((Tree.lookup_reach hy).bound (hh _) (hl.valid x hx).2).2 hzc))
    · -- past `z`: the operation's own account
      have ht' : t' <+: G := (List.prefix_append_right_inj s).1 ht
      have hxz'' : h''.lookup x s = some ⟨x.tree, zc⟩ := by
        simp only [Heap.lookup, hpre s (List.prefix_refl s), hzc, Option.map_some']
      rw [Heap.lookup_append_of hxz'', Heap.lookup_append_of hxz]
      exact hg _ hzE t' ht'
  · -- a region without an atom of `E`
    have hr : ∀ b, (h.trees x.tree).Reach x.addr b → (h''.trees x.tree).cells b = (h.trees x.tree).cells b :=
      fun b hb => hf ⟨x.tree, b⟩ ⟨(hl.valid x hx).1, (hb.bound (hh _) (hl.valid x hx).2).2⟩
        fun y' hy' ht' => (hz ⟨y', hy', ht'⟩).elim
    refine ⟨by simp only [Heap.lookup, Tree.lookup_congr hr t], fun z hz' => ?_⟩
    obtain ⟨y, hy, rfl⟩ := lookup_some hz'
    exact Atom.SameKind.of_eq (hr y (Tree.lookup_reach hy))

/-- Layers changed along `P` only, each keeping its tag and its flag,
show their nodes alike along a path every non-empty prefix of which parts
from `P`. -/
theorem Heap.WalkKept.of_changedAlong {P G : List String} {xs : List Ptr}
    (hc : ∀ x ∈ xs, h.ChangedAlong h'' P x) (hG : ∀ t, t <+: G → t ≠ [] → Tree.Apart t P) :
    h.WalkKept h'' G xs := by
  intro x hx t ht
  by_cases h0 : t = []
  · subst h0
    refine ⟨rfl, fun z hz => ?_⟩
    obtain rfl : x = z := Option.some.inj hz
    exact ⟨(hc x hx).root, (hc x hx).flag⟩
  · have hap := hG t ht h0
    refine ⟨by simp only [Heap.lookup, (hc x hx).lookup t hap], fun z hz => ?_⟩
    obtain ⟨y, hy, rfl⟩ := lookup_some hz
    exact Atom.SameKind.of_eq ((hc x hx).below t y hap hy y .refl)

end Level

-- ============================== what an operation from a level leaves

section LevelOp

variable {cs : CryptoService} {h h' : Heap} {l : ConfigLevel} {d : ConfigPrivate} {a : Ptr}
  {as : List Ptr}

/-- What an operation from a level leaves: nothing below the level's
atoms rewritten, and every layer changed along `P` only. -/
structure Heap.LevelOp (h h' : Heap) (P : List String) (xs : List Ptr) : Prop where
  fixed : h.FixedBelow h' xs
  changed : ∀ x ∈ xs, h.ChangedAlong h' P x

theorem ConfigLevel.childPath_append : ∀ (s t : List String) (l : ConfigLevel) (h : Heap),
    l.childPath (s ++ t) h = (l.childPath s h).bind fun r => r.1.childPath t r.2
  | [], _, _, _ => rfl
  | n :: s, t, l, h => by
      simp only [List.cons_append, ConfigLevel.childPath, Option.bind_eq_bind]
      rcases l.child n h with _ | ⟨l₁, h₁⟩
      · rfl
      · exact ConfigLevel.childPath_append s t l₁ h₁

/-- The loop of `Config::value` for `name` over a level: every layer
changes along `[name]` only. -/
theorem valueLoop_levelOp {name : String} {var r : Variant} (hl : l.OK h) (hh : h.Closed)
    (e : valueLoop name l.atoms var h = some (r, h')) : h.LevelOp h' [name] l.atoms :=
  ⟨valueLoop_fixedBelow _ _ hh hl.valid e, valueLoop_changedAlong (s := []) rfl (Tracks.refl _) hh
    hl.valid hl.separate hl.valid e⟩

/-- Navigation along `ns`, `convert(Map)`, and the loop of `value` for
`name`, from a level whose first atom is a writable Map. -/
theorem walkValue_levelOp {ns : List String} {name : String} {l₁ L : ConfigLevel} {h₁ h₂ : Heap}
    {var r : Variant} (hl : l.OK h) (hh : h.Closed) (hat : l.atoms = a :: as)
    (hwa : (h.atom a).readOnly = false) (hma : (h.atom a).isMap)
    (e₁ : l.childPath ns h = some (l₁, h₁)) (e₂ : l₁.convert .map h₁ = some (L, h₂))
    (e₃ : valueLoop name L.atoms var h₂ = some (r, h')) : h.LevelOp h' (ns ++ [name]) l.atoms := by
  have s₁ := ConfigLevel.childPath_step ns hl hh e₁
  have s₂ := ConfigLevel.map_step (convertCallback_ok .map) s₁.ok s₁.closed e₂
  obtain ⟨f, hr⟩ := walk_rises hh hl e₁ e₂
  obtain ⟨b, bs, hL, hsp, -, htr⟩ :=
    walk_tracks (P := ns ++ [name]) hl hh hat hwa hma (List.prefix_append _ _) e₁ e₂
  refine ⟨f.trans (valueLoop_fixedBelow _ _ s₂.closed s₂.ok.valid e₃) hr (s₁.trans s₂).grows, ?_⟩
  rw [hat]
  exact valueLoop_changedAlong rfl (.keep hsp.changed hsp.lookup htr) s₂.closed (hat ▸ hl.valid)
    (hat ▸ hl.separate) (hL ▸ s₂.ok.valid) (hL ▸ e₃)

/-- `fromVariant` and then `replace(name, …)` on the first atom `b` of
the level entered along `s` from the layers `a :: as`: the written
layer changes along `s ++ [name]` only, no other region changes, and
nothing below the layers' atoms is rewritten. -/
theorem store_levelOp {P s : List String} {name : String} {v : Variant} {b : Ptr} {bs : List Ptr}
    {h₁ : Heap} {changed : Bool} (hva : ∀ x ∈ a :: as, h.Valid x)
    (hn : ((a :: as).map Ptr.tree).Nodup) (hP : s ++ [name] = P) (hsp : Spine h h₁ P s a b)
    (htr : Tracks h h₁ P s as bs) (hf : h.FixedBelow h₁ (a :: as)) (hr : Rises (· ≤ ·) (a :: as) (b :: bs))
    (hg : h.Grows h₁) (hh₁ : h₁.Closed) (hvb : h₁.Valid b) (hm : (h₁.atom b).isMap)
    (e : (h₁.fromVariant b.tree v false).2.replace b name (h₁.fromVariant b.tree v false).1.addr =
      some (changed, h')) : h.LevelOp h' P (a :: as) := by
  obtain ⟨changed', h₂, e', hc₂, hfr, -⟩ :=
    store_changedAlong (v := v) hh₁ hsp.changed (hva a (.head _)) hsp.lookup hP hm
  obtain ⟨-, rfl⟩ := Prod.mk.inj (Option.some.inj (e.symm.trans e'))
  have f₂ := fixedBelow_of_alloc (Tree.touches_fromVariant (hh₁ b.tree) false v _) (b :: bs)
  have f₃ := (replace_fixedBelow e).mono (Rises.of_sublist (List.singleton_sublist.2 (.head bs)))
  refine ⟨hf.trans (f₂.trans f₃ (.refl _) (fromVariant_local hh₁ hvb.1 v false).1.grows) hr hg,
    fun x hx => ?_⟩
  rcases List.mem_cons.1 hx with rfl | hx
  · exact hc₂
  · exact (htr.changed x hx).frame (hfr _ (not_mem_of_nodup hn x hx).symm)

/-- What `enterKey` does: nothing on a key without `/`; on any other
key, the walk along the group's names and `convert(Map)`, pushed. -/
theorem enterKey_inv {key : String} {d₁ : ConfigPrivate} {h₁ : Heap}
    (e : enterKey key d h = some (d₁, h₁)) :
    slashIndex key = -1 ∧ d₁ = d ∧ h₁ = h ∨
      slashIndex key ≠ -1 ∧ ∃ l₁ L h₂, d.current.childPath (parseNames (keyGroup key)) h = some (l₁, h₂) ∧
        l₁.convert .map h₂ = some (L, h₁) ∧ d₁ = d.push L := by
  unfold enterKey at e
  split_ifs at e with hs
  · simp only [Option.some.injEq, Prod.mk.injEq] at e
    exact .inl ⟨hs, e.1.symm, e.2.symm⟩
  · simp only [beginGroup, Option.bind_eq_bind, Option.bind_eq_some, Option.guard_eq_some,
      Option.pure_def, Option.some.injEq, Prod.mk.injEq] at e
    obtain ⟨-, -, -, -, ⟨l₁, h₂⟩, e₁, ⟨L, h₃⟩, e₂, rfl, rfl⟩ := e
    unfold ConfigLevel.childNames at e₁
    split_ifs at e₁
    exact .inr ⟨hs, l₁, L, h₂, e₁, e₂, rfl⟩

/-- What `Config::value` does on a cursor with a layer: `enterKey`, then
the loop over the level entered. -/
theorem value_inv {key : String} {dflt r : Variant} {flags : ValueFlags} {d' : ConfigPrivate}
    (hne : d.current.atoms ≠ []) (e : value cs key dflt flags d h = some (r, d', h')) :
    ∃ d₁ h₁ v, enterKey key d h = some (d₁, h₁) ∧
      valueLoop (keyName key) d₁.current.atoms .invalid h₁ = some (v, h') := by
  simp only [value, if_neg hne, Option.bind_eq_bind, Option.bind_eq_some, Option.pure_def,
    Option.some.injEq, Prod.mk.injEq] at e
  obtain ⟨⟨d₁, h₁⟩, e₁, ⟨v, h₂⟩, e₂, -, -, -, -, rfl⟩ := e
  exact ⟨d₁, h₁, v, e₁, e₂⟩

/-- What `Config::setValue` does on a cursor with a layer: `enterKey`,
then `fromVariant` and `replace` on the entered level's first atom, a
Map. -/
theorem setValue_inv {key : String} {v : Variant} {flags : ValueFlags} {d' : ConfigPrivate}
    {s s' : Store} (hne : d.current.atoms ≠ []) (e : setValue cs key v flags d s = some (d', s')) :
    ∃ d₁ h₁ b changed, enterKey key d s.heap = some (d₁, h₁) ∧ d₁.current.atoms.head? = some b ∧
      (h₁.atom b).isMap ∧ (h₁.atom b).readOnly = false ∧
      (h₁.fromVariant b.tree (if flags.crypted then cs.crypt v else v) false).2.replace b (keyName key)
        (h₁.fromVariant b.tree (if flags.crypted then cs.crypt v else v) false).1.addr =
          some (changed, s'.heap) := by
  simp only [setValue, if_neg hne, Option.bind_eq_bind, Option.bind_eq_some, Option.guard_eq_some,
    Option.pure_def, Option.some.injEq, Prod.mk.injEq] at e
  obtain ⟨⟨d₁, h₁⟩, e₁, b, hb, u, hg, ⟨changed, h₃⟩, e₃, -, -, -, rfl⟩ := e
  have hm : (h₁.atom b).isMap ∧ (h₁.atom b).readOnly = false := by
    by_contra hm
    simp_all
  exact ⟨d₁, h₁, b, changed, e₁, hb, hm.1, hm.2, by simpa using e₃⟩

theorem childPath_ne_nil {s : List String} {l lₛ : ConfigLevel} {h₁ : Heap}
    (e : l.childPath s h = some (lₛ, h₁)) (hne : lₛ.atoms ≠ []) : l.atoms ≠ [] :=
  fun h0 => hne (childPath_atoms_nil s h0 e)

/-- `Config::value` on a key with a group part whose first names `s`
walk, changing nothing, to a level whose first atom is a writable Map:
from that level on, every layer changes along the rest of the key's
path only. -/
theorem value_levelOp_below {key : String} {s Q : List String} {lₛ : ConfigLevel} {dflt r : Variant}
    {flags : ValueFlags} {d' : ConfigPrivate} (hd : d.OK h) (hh : h.Closed) (hs : slashIndex key ≠ -1)
    (hQ : parseNames (keyGroup key) = s ++ Q) (eₛ : d.current.childPath s h = some (lₛ, h))
    (hat : lₛ.atoms = a :: as) (hwa : (h.atom a).readOnly = false) (hma : (h.atom a).isMap)
    (e : value cs key dflt flags d h = some (r, d', h')) : h.LevelOp h' (Q ++ [keyName key]) lₛ.atoms := by
  obtain ⟨d₁, h₁, v, e₁, e₂⟩ := value_inv (childPath_ne_nil eₛ (hat ▸ List.cons_ne_nil _ _)) e
  rcases enterKey_inv e₁ with ⟨hs', -, -⟩ | ⟨-, l₁, L, h₂, e₃, e₄, rfl⟩
  · exact absurd hs' hs
  · rw [hQ, ConfigLevel.childPath_append, eₛ, Option.some_bind] at e₃
    exact walkValue_levelOp (ConfigLevel.childPath_step s hd.current hh eₛ).ok hh hat hwa hma e₃ e₄ e₂

/-- `Config::value` on a key without `/`: the loop over the current
level, every layer changing along the key only. -/
theorem value_levelOp_root {key : String} {dflt r : Variant} {flags : ValueFlags}
    {d' : ConfigPrivate} (hd : d.OK h) (hh : h.Closed) (hs : slashIndex key = -1)
    (hne : d.current.atoms ≠ []) (e : value cs key dflt flags d h = some (r, d', h')) :
    h.LevelOp h' [keyName key] d.current.atoms := by
  obtain ⟨d₁, h₁, v, e₁, e₂⟩ := value_inv hne e
  rcases enterKey_inv e₁ with ⟨-, rfl, rfl⟩ | ⟨hs', -⟩
  · exact valueLoop_levelOp hd.current hh e₂
  · exact absurd hs hs'

/-- `Config::value` on a cursor whose first atom is a writable Map:
every layer changes along the key's path only, and nothing below the
current atoms is rewritten. -/
theorem value_levelOp {key : String} {dflt r : Variant} {flags : ValueFlags} {d' : ConfigPrivate}
    (hd : d.OK h) (hh : h.Closed) (hat : d.current.atoms = a :: as) (hwa : (h.atom a).readOnly = false)
    (hma : (h.atom a).isMap) (e : value cs key dflt flags d h = some (r, d', h')) :
    h.LevelOp h' (keyPath key) d.current.atoms := by
  rw [keyPath_eq, keyGroupPath]
  split_ifs with hs
  · exact value_levelOp_root hd hh hs (hat ▸ List.cons_ne_nil _ _) e
  · exact value_levelOp_below hd hh hs (List.nil_append _).symm rfl hat hwa hma e

/-- `fromVariant` and `replace` at the first atom of the level a walk
along `ns` and `convert(Map)` reach from a level whose first atom is a
writable Map. -/
theorem walkStore_levelOp {ns : List String} {name : String} {v : Variant} {l₁ L : ConfigLevel}
    {h₁ h₂ : Heap} {b : Ptr} {changed : Bool} (hl : l.OK h) (hh : h.Closed) (hat : l.atoms = a :: as)
    (hwa : (h.atom a).readOnly = false) (hma : (h.atom a).isMap)
    (e₁ : l.childPath ns h = some (l₁, h₁)) (e₂ : l₁.convert .map h₁ = some (L, h₂))
    (hb : L.atoms.head? = some b)
    (e₃ : (h₂.fromVariant b.tree v false).2.replace b name (h₂.fromVariant b.tree v false).1.addr =
      some (changed, h')) : h.LevelOp h' (ns ++ [name]) l.atoms := by
  have s₁ := ConfigLevel.childPath_step ns hl hh e₁
  have s₂ := ConfigLevel.map_step (convertCallback_ok .map) s₁.ok s₁.closed e₂
  obtain ⟨f, hr⟩ := walk_rises hh hl e₁ e₂
  obtain ⟨b', bs, hL, hsp, hm, htr⟩ :=
    walk_tracks (P := ns ++ [name]) hl hh hat hwa hma (List.prefix_append _ _) e₁ e₂
  obtain rfl : b = b' := (by simpa [hL] using hb : b' = b).symm
  rw [hat] at f hr ⊢
  exact store_levelOp (hat ▸ hl.valid) (hat ▸ hl.separate) rfl hsp htr f (hL ▸ hr) (s₁.trans s₂).grows
    s₂.closed (s₂.ok.valid b (hL ▸ .head _)) hm e₃

/-- `Config::setValue` on a key with a group part whose first names `s`
walk, changing nothing, to a level whose first atom is a writable Map:
from that level on, every layer changes along the rest of the key's
path only. -/
theorem setValue_levelOp_below {key : String} {s Q : List String} {lₛ : ConfigLevel} {v : Variant}
    {flags : ValueFlags} {d' : ConfigPrivate} {st st' : Store} (hd : d.OK st.heap) (hh : st.heap.Closed)
    (hs : slashIndex key ≠ -1) (hQ : parseNames (keyGroup key) = s ++ Q)
    (eₛ : d.current.childPath s st.heap = some (lₛ, st.heap)) (hat : lₛ.atoms = a :: as)
    (hwa : (st.heap.atom a).readOnly = false) (hma : (st.heap.atom a).isMap)
    (e : setValue cs key v flags d st = some (d', st')) :
    st.heap.LevelOp st'.heap (Q ++ [keyName key]) lₛ.atoms := by
  obtain ⟨d₁, h₁, b, changed, e₁, hb, -, -, e₂⟩ :=
    setValue_inv (childPath_ne_nil eₛ (hat ▸ List.cons_ne_nil _ _)) e
  rcases enterKey_inv e₁ with ⟨hs', -, -⟩ | ⟨-, l₁, L, h₂, e₃, e₄, rfl⟩
  · exact absurd hs' hs
  · rw [hQ, ConfigLevel.childPath_append, eₛ, Option.some_bind] at e₃
    exact walkStore_levelOp (ConfigLevel.childPath_step s hd.current hh eₛ).ok hh hat hwa hma e₃ e₄ hb e₂

/-- `Config::setValue` on a key without `/`: the write into the first
atom, every layer changing along the key only. -/
theorem setValue_levelOp_root {key : String} {v : Variant} {flags : ValueFlags} {d' : ConfigPrivate}
    {st st' : Store} (hd : d.OK st.heap) (hh : st.heap.Closed) (hs : slashIndex key = -1)
    (hat : d.current.atoms = a :: as) (e : setValue cs key v flags d st = some (d', st')) :
    st.heap.LevelOp st'.heap [keyName key] d.current.atoms := by
  obtain ⟨d₁, h₁, b, changed, e₁, hb, hm, hw, e₂⟩ := setValue_inv (hat ▸ List.cons_ne_nil _ _) e
  rcases enterKey_inv e₁ with ⟨-, rfl, rfl⟩ | ⟨hs', -⟩
  · obtain rfl : a = b := by simpa [hat] using hb
    rw [hat]
    exact store_levelOp (hat ▸ hd.current.valid) (hat ▸ hd.current.separate) rfl
      ⟨Tree.ChangedAlong.refl _ _ _, lookup_nil _ a, hw⟩ (Tracks.refl as) (.refl _ _) (.refl _)
      (Grows.refl _) hh (hd.current.valid a (hat ▸ .head _)) hm e₂
  · exact absurd hs hs'

/-- `Config::setValue` on a cursor whose first atom is a writable Map:
every layer changes along the key's path only, and nothing below the
current atoms is rewritten. -/
theorem setValue_levelOp {key : String} {v : Variant} {flags : ValueFlags} {d' : ConfigPrivate}
    {st st' : Store} (hd : d.OK st.heap) (hh : st.heap.Closed) (hat : d.current.atoms = a :: as)
    (hwa : (st.heap.atom a).readOnly = false) (hma : (st.heap.atom a).isMap)
    (e : setValue cs key v flags d st = some (d', st')) :
    st.heap.LevelOp st'.heap (keyPath key) d.current.atoms := by
  rw [keyPath_eq, keyGroupPath]
  split_ifs with hs
  · exact setValue_levelOp_root hd hh hs hat e
  · exact setValue_levelOp_below hd hh hs (List.nil_append _).symm rfl hat hwa hma e

/-- An operation on one layer's atom `x`, which changes no other region,
seen from the whole level. -/
theorem Heap.LevelOp.of_single {P : List String} {x : Ptr} {xs : List Ptr} (hop : h.LevelOp h' P [x])
    (hfr : ∀ u ≠ x.tree, h'.trees u = h.trees u) (hx : x ∈ xs) (hn : (xs.map Ptr.tree).Nodup) :
    h.LevelOp h' P xs := by
  refine ⟨hop.fixed.mono (Rises.of_sublist (List.singleton_sublist.2 hx)), fun y hy => ?_⟩
  by_cases hyx : y = x
  · exact hyx ▸ hop.changed x (.head _)
  · exact Heap.ChangedAlong.frame (Tree.ChangedAlong.refl _ _ _)
      (hfr _ fun e => hyx (List.inj_on_of_nodup_map hn hy hx e))

/-- `Config::remove(name)`: the first layer changes along `[name]` only,
at its atom alone, and no other region changes. -/
theorem remove_levelOp {name : String} {st st' : Store} (hd : d.OK st.heap) (hh : st.heap.Closed)
    (e : remove name d st = some st') : st.heap.LevelOp st'.heap [name] d.current.atoms := by
  obtain ⟨x, b, hx, e'⟩ := remove_heap e
  have hmem := List.mem_of_mem_head? hx
  have hfr := (Heap.remove_spec e').2.2
  simp only [Heap.remove, Option.map_eq_some', Prod.mk.injEq] at e'
  obtain ⟨⟨b₀, T⟩, eT, -, hT⟩ := e'
  rw [← hT] at hfr ⊢
  have ht : (st.heap.trees x.tree).Touches T x.addr := by
    unfold Tree.remove at eT
    split_ifs at eT
    cases eT
    exact Tree.touches_setPayload _ _ _
  refine Heap.LevelOp.of_single ⟨fixedBelow_update ht, fun y hy => ?_⟩ hfr hmem hd.current.separate
  obtain rfl := List.mem_singleton.1 hy
  simpa [Heap.ChangedAlong] using Tree.ChangedAlong.remove (hh _) (hd.current.valid y hmem).2 eT

end LevelOp

-- ================================================ the group cursor

section Coherence

variable {cs : CryptoService} {p : String} {c d : ConfigPrivate} {h h'' : Heap}

/-- `convert(type)` keeps some of the level's atoms, in order. -/
theorem mapAtoms_convert_sublist {type : AtomType} : ∀ {first : Bool} {xs ys : List Ptr} {h h' : Heap},
    mapAtoms (convertCallback type) first xs h = some (ys, h') → ys.Sublist xs
  | _, [], _, _, _, e => by
      simp only [mapAtoms, Option.some.injEq, Prod.mk.injEq] at e
      exact e.1 ▸ .slnil
  | _, x :: _, _, _, _, e => by
      simp only [mapAtoms, Option.bind_eq_bind, Option.bind_eq_some, Option.pure_def,
        Option.some.injEq, Prod.mk.injEq] at e
      obtain ⟨⟨r, h₁⟩, e₁, ⟨ys', h₂⟩, e₂, rfl, -⟩ := e
      have ih := mapAtoms_convert_sublist e₂
      unfold convertCallback at e₁
      split_ifs at e₁ <;> simp only [Option.some.injEq, Prod.mk.injEq] at e₁ <;> obtain ⟨rfl, -⟩ := e₁
      · exact ih.cons x
      · exact ih.cons₂ x

theorem beginGroup_names {g : ConfigPrivate × Heap} (e : beginGroup p c h = some g) :
    parseNames p ≠ [] := fun hn => by
  rw [beginGroup_of_names_nil hn] at e
  cases e

/-- A writable first atom whose `child(name)` changed nothing is a Map:
`child` makes a writable node one. -/
theorem child_quiet_head_isMap {n : String} {l l' : ConfigLevel} {b : Ptr} {bs : List Ptr}
    (hh : h.Closed) (hl : l.OK h) (hat : l.atoms = b :: bs) (hw : (h.atom b).readOnly = false)
    (e : l.child n h = some (l', h)) : (h.atom b).isMap := by
  simp only [ConfigLevel.child, ConfigLevel.map, Option.map_eq_some', Prod.mk.injEq, hat] at e
  obtain ⟨⟨ys, h₁⟩, e, -, he⟩ := e
  obtain rfl : h = h₁ := he.symm
  obtain ⟨r, -, e₁, -, -⟩ := mapAtoms_quiet_cons (childCallback_ok n) hh (hat ▸ hl.valid)
    (hat ▸ hl.separate) e
  simp only [childCallback, hw, Bool.not_true, Bool.or_false, Bool.false_and, Bool.false_eq_true,
    if_false, Heap.child, Option.map_eq_some', Prod.mk.injEq] at e₁
  obtain ⟨⟨r₀, T⟩, eT, -, hT⟩ := e₁
  obtain rfl : T = h.trees b.tree := by
    simpa [Heap.update] using congrArg (fun h₀ => h₀.trees b.tree) hT
  rcases Tree.child_cases eT with ⟨c, -, -, hc⟩ | ⟨-, -, hro, -⟩ | ⟨-, -, -, hT'⟩
  · by_contra hm
    rw [Tree.entries_of_not_isMap (by simpa [Heap.atom] using hm)] at hc
    cases hc
  · exact absurd hro (by rw [Bool.not_eq_true]; exact hw)
  · have := congrArg Tree.next hT'
    simp at this

/-- The derived cursor `d` is coherent with its parent `c` at the group
`p`: both hold the same Sources, the parent's `beginGroup(p)` reaches
`d`'s level and changes nothing, and the parent's first atom is a
writable Map. -/
structure Coherent (p : String) (c d : ConfigPrivate) (h : Heap) : Prop where
  /-- The clone holds the parent's Sources. -/
  sources : d.sources = c.sources
  /-- The parent's `beginGroup(p)` reaches the clone's level and changes nothing. -/
  group : beginGroup p c h = some (c.push d.current, h)
  /-- The parent's first atom is a writable Map. -/
  head : ∃ a as, c.current.atoms = a :: as ∧ (h.atom a).readOnly = false ∧ (h.atom a).isMap

/-- Right after `Config::group(p)`, on a cursor whose first atom is a
writable Map: the cursor is back where it was, and the clone is coherent
with it, since `beginGroup(p)` changes nothing the second time. -/
theorem group_coherent {self : Nat} {d c' : ConfigPrivate} {h₁ : Heap} {a : Ptr} {as : List Ptr}
    (hc : c.OK h) (hh : h.Closed) (hat : c.current.atoms = a :: as)
    (hwa : (h.atom a).readOnly = false) (hma : (h.atom a).isMap)
    (e : group p self c h = some (d, c', h₁)) : c' = c ∧ Coherent p c d h₁ := by
  simp only [group, Option.bind_eq_bind, Option.bind_eq_some, Option.pure_def, Option.some.injEq,
    Prod.mk.injEq] at e
  obtain ⟨-, -, ⟨g, h₂⟩, e₁, c₁, e₂, rfl, rfl, rfl⟩ := e
  obtain ⟨-, L, rfl⟩ := beginGroup_push e₁
  obtain rfl : c₁ = c := by simpa [endGroup] using e₂.symm
  obtain ⟨-, -, b, bs, -, hsp, -, -⟩ :=
    beginGroup_tracks hc hh hat hwa hma (beginGroup_names e₁) (List.prefix_refl _) e₁
  refine ⟨rfl, rfl, beginGroup_replay hc hh e₁ (.refl _ _) fun _ _ => ⟨rfl, rfl⟩, a, as, hat,
    hsp.changed.flag.trans hwa, hsp.changed.root.trans hma⟩

/-- Coherence survives any heap that shows every layer's nodes along the
group path alike. -/
theorem Coherent.keep (hco : Coherent p c d h) (hc : c.OK h) (hh : h.Closed)
    (hw : h.WalkKept h'' (parseNames p) c.current.atoms) : Coherent p c d h'' := by
  obtain ⟨a, as, hat, hwa, hma⟩ := hco.head
  have hk := (hw a (hat ▸ .head _) [] List.nil_prefix).2 a rfl
  exact ⟨hco.sources, beginGroup_walkKept hc hh hco.group hw, a, as, hat, hk.2.trans hwa, hk.1.trans hma⟩

/-- The clone's first atom is the parent's first layer's node at the
group path, a writable Map. -/
theorem Coherent.derived_head (hco : Coherent p c d h) (hc : c.OK h) (hh : h.Closed) :
    ∃ b bs, d.current.atoms = b :: bs ∧ (h.atom b).readOnly = false ∧ (h.atom b).isMap := by
  obtain ⟨a, as, hat, hwa, hma⟩ := hco.head
  obtain ⟨-, -, b, bs, hb, hsp, hm, -⟩ := beginGroup_tracks hc hh hat hwa hma
    (beginGroup_names hco.group) (List.prefix_refl _) hco.group
  exact ⟨b, bs, hb, hsp.writable, hm⟩

/-- An operation through the clone that rewrites nothing below its atoms
and keeps their tags and flags keeps the coherence: the parent's walk
passes below the clone's level, and ends on it. -/
theorem Coherent.keep_derived {P : List String} (hco : Coherent p c d h) (hc : c.OK h)
    (hh : h.Closed) (hop : h.LevelOp h'' P d.current.atoms) : Coherent p c d h'' := by
  obtain ⟨l₁, L, -, e₁, e₂, hL⟩ := beginGroup_quiet hc hh hco.group
  obtain rfl : d.current = L := by simpa using congrArg ConfigPrivate.current hL
  have hE : d.current.atoms.Sublist l₁.atoms := by
    simp only [ConfigLevel.convert, ConfigLevel.map, Option.map_eq_some', Prod.mk.injEq] at e₂
    obtain ⟨⟨ys, h₂⟩, e₂, hys, -⟩ := e₂
    exact hys ▸ mapAtoms_convert_sublist e₂
  refine hco.keep hc hh ?_
  simpa using walkKept_of_level (G := []) hh hc.current e₁ hE hop.fixed
    (Heap.WalkKept.of_changedAlong hop.changed fun t ht h0 => absurd (List.prefix_nil.1 ht) h0)

/-- Each level of the group's walk before its end: the parent's walk to
it changes nothing, and its first atom is a writable Map. -/
theorem Coherent.level {s G : List String} {g : String} (hco : Coherent p c d h) (hc : c.OK h)
    (hh : h.Closed) (hG : parseNames p = s ++ g :: G) :
    ∃ lₛ b bs, c.current.childPath s h = some (lₛ, h) ∧ lₛ.atoms = b :: bs ∧
      (h.atom b).readOnly = false ∧ (h.atom b).isMap := by
  obtain ⟨a, as, hat, hwa, hma⟩ := hco.head
  obtain ⟨l₁, L, -, e₁, -, -⟩ := beginGroup_quiet hc hh hco.group
  rw [hG] at e₁
  obtain ⟨lₛ, eₛ, e'⟩ := childPath_quiet_append s hh hc.current e₁
  have sₛ := ConfigLevel.childPath_step s hc.current hh eₛ
  obtain ⟨b, bs, hb, hsp, -⟩ := childPath_tracks (P := s) (hat ▸ hc.current.valid)
    (hat ▸ hc.current.separate) s hat ⟨Tree.ChangedAlong.refl _ _ _, lookup_nil h a, hwa⟩
    (Tracks.refl as) hh hc.current (by simp) (fun _ => hma) eₛ
  obtain ⟨l', e₂, -⟩ := childPath_quiet_cons hh sₛ.ok e'
  exact ⟨lₛ, b, bs, eₛ, hb, hsp.writable, child_quiet_head_isMap hh sₛ.ok hb hsp.writable e₂⟩

theorem Tree.apart_cons {x y : String} (hne : x ≠ y) (t u : List String) :
    Tree.Apart (x :: t) (y :: u) :=
  ⟨fun hp => hne (List.cons_prefix_cons.1 hp).1, fun hp => hne (List.cons_prefix_cons.1 hp).1.symm⟩

/-- Two paths that part share a prefix and then differ in one name. -/
theorem Tree.Apart.split : ∀ {P G : List String}, Tree.Apart P G →
    ∃ s m g P' G', P = s ++ m :: P' ∧ G = s ++ g :: G' ∧ m ≠ g
  | [], _, hap => (hap.1 List.nil_prefix).elim
  | _ :: _, [], hap => (hap.2 List.nil_prefix).elim
  | m :: P, g :: G, hap => by
      by_cases hmg : m = g
      · subst hmg
        obtain ⟨s, m', g', P', G', rfl, rfl, hne⟩ := Tree.Apart.split (P := P) (G := G)
          ⟨fun hp => hap.1 ((List.prefix_cons_inj m).2 hp), fun hp => hap.2 ((List.prefix_cons_inj m).2 hp)⟩
        exact ⟨m :: s, m', g', P', G', rfl, rfl, hne⟩
      · exact ⟨[], m, g, P, G, rfl, rfl, hmg⟩

/-- A path ending in one name, cut at a prefix that ends before it. -/
theorem snoc_eq_append_cons {Q s P : List String} {n m : String} (h : Q ++ [n] = s ++ m :: P) :
    ∃ Q₂, Q = s ++ Q₂ ∧ Q₂ ++ [n] = m :: P := by
  rcases List.append_eq_append_iff.1 h with ⟨a', rfl, h'⟩ | ⟨c', rfl, h'⟩
  · cases a' with
    | nil => exact ⟨[], by simp, by simpa using h'⟩
    | cons x a' => simp at h'
  · exact ⟨c', rfl, h'.symm⟩

/-- An operation through the parent that leaves the group's walk at a
level the walk reaches changing nothing, and there changes the layers
along a path that parts from the rest of the group path, keeps the
coherence. -/
theorem Coherent.keep_apart {s P G : List String} {m g : String} {lₛ : ConfigLevel}
    (hco : Coherent p c d h) (hc : c.OK h) (hh : h.Closed) (hG : parseNames p = s ++ g :: G)
    (hmg : m ≠ g) (eₛ : c.current.childPath s h = some (lₛ, h)) (hop : h.LevelOp h'' (m :: P) lₛ.atoms) :
    Coherent p c d h'' := by
  refine hco.keep hc hh (hG ▸ walkKept_of_level hh hc.current eₛ (List.Sublist.refl _) hop.fixed
    (Heap.WalkKept.of_changedAlong hop.changed fun t ht h0 => ?_))
  obtain ⟨x, t, rfl⟩ := List.exists_cons_of_ne_nil h0
  obtain rfl := (List.cons_prefix_cons.1 ht).1
  exact Tree.apart_cons (Ne.symm hmg) t P

/-- The group part of a key, split where a walk from `l` stops quiet:
either the key has no `/` and the walk stayed at `l`, or the split is of
the names of its group part. -/
theorem keyGroupPath_cases {key : String} {s Q : List String} {l lₛ : ConfigLevel}
    (hQ : keyGroupPath key = s ++ Q) (eₛ : l.childPath s h = some (lₛ, h)) :
    (slashIndex key = -1 ∧ Q = [] ∧ lₛ = l) ∨
      (slashIndex key ≠ -1 ∧ parseNames (keyGroup key) = s ++ Q) := by
  unfold keyGroupPath at hQ
  split_ifs at hQ with hs
  · obtain ⟨rfl, rfl⟩ := List.append_eq_nil.1 hQ.symm
    obtain ⟨rfl, -⟩ := Prod.mk.inj (Option.some.inj eₛ)
    exact .inl ⟨hs, rfl, rfl⟩
  · exact .inr ⟨hs, hQ⟩

/-- An operation through the parent at a key whose path parts from the
group's, which from any level the group's walk reaches quiet changes only
the layers along the rest of the key's path, keeps the coherence. -/
theorem Coherent.keep_key {key : String} (hco : Coherent p c d h) (hc : c.OK h) (hh : h.Closed)
    (hap : Tree.Apart (keyPath key) (parseNames p))
    (hop : ∀ {s Q : List String} {lₛ : ConfigLevel} {b : Ptr} {bs : List Ptr},
      keyGroupPath key = s ++ Q → c.current.childPath s h = some (lₛ, h) → lₛ.atoms = b :: bs →
        (h.atom b).readOnly = false → (h.atom b).isMap → h.LevelOp h'' (Q ++ [keyName key]) lₛ.atoms) :
    Coherent p c d h'' := by
  obtain ⟨s, m, g, P, G, hP, hG, hmg⟩ := hap.split
  obtain ⟨Q, hQ, hQP⟩ := snoc_eq_append_cons ((keyPath_eq key).symm.trans hP)
  obtain ⟨lₛ, b, bs, eₛ, hb, hwb, hmb⟩ := hco.level hc hh hG
  exact hco.keep_apart hc hh hG hmg eₛ (hQP ▸ hop hQ eₛ hb hwb hmb)

/-- A read through the parent at a key whose path parts from the group's
keeps the coherence. -/
theorem Coherent.keep_value {key : String} {dflt r : Variant} {flags : ValueFlags}
    {c' : ConfigPrivate} (hco : Coherent p c d h) (hc : c.OK h) (hh : h.Closed)
    (hap : Tree.Apart (keyPath key) (parseNames p)) (e : value cs key dflt flags c h = some (r, c', h'')) :
    Coherent p c d h'' :=
  hco.keep_key hc hh hap fun hQ eₛ hb hwb hmb => by
    rcases keyGroupPath_cases hQ eₛ with ⟨hs, rfl, rfl⟩ | ⟨hs, hQ⟩
    · exact value_levelOp_root hc hh hs (hb ▸ List.cons_ne_nil _ _) e
    · exact value_levelOp_below hc hh hs hQ eₛ hb hwb hmb e

/-- A write through the parent at a key whose path parts from the
group's keeps the coherence. -/
theorem Coherent.keep_setValue {key : String} {v : Variant} {flags : ValueFlags}
    {c' : ConfigPrivate} {st st' : Store} (hco : Coherent p c d st.heap) (hc : c.OK st.heap)
    (hh : st.heap.Closed) (hap : Tree.Apart (keyPath key) (parseNames p))
    (e : setValue cs key v flags c st = some (c', st')) : Coherent p c d st'.heap :=
  hco.keep_key hc hh hap fun hQ eₛ hb hwb hmb => by
    rcases keyGroupPath_cases hQ eₛ with ⟨hs, rfl, rfl⟩ | ⟨hs, hQ⟩
    · exact setValue_levelOp_root hc hh hs hb e
    · exact setValue_levelOp_below hc hh hs hQ eₛ hb hwb hmb e

/-- A removal through the parent of a name the group path does not
start with keeps the coherence. -/
theorem Coherent.keep_remove {name : String} {st st' : Store} (hco : Coherent p c d st.heap)
    (hc : c.OK st.heap) (hh : st.heap.Closed) (hap : Tree.Apart [name] (parseNames p))
    (e : remove name c st = some st') : Coherent p c d st'.heap := by
  obtain ⟨s, m, g, P, G, hP, hG, hmg⟩ := hap.split
  obtain ⟨rfl, rfl, rfl⟩ : s = [] ∧ m = name ∧ P = [] := by
    cases s with
    | nil => simp_all
    | cons x s => simp at hP
  exact hco.keep_apart hc hh hG hmg rfl (remove_levelOp hc hh e)

end Coherence

end QutimConfig
