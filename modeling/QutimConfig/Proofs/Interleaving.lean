/-
The group cursor over an interleaving (config.cpp:760-768, 825-837,
1025-1120).

# Keys inside the group

`p/k` splits back into `p` and `k` at `k`'s last `/`, or at the joining
`/` when `k` has none (`keyGroup_join_slash`, `keyName_join_slash`), and
the names of `p/g` are those of `p` then those of `g`
(`parseNames_join`). Entering `p/g` from the parent walks `p`, which
changes nothing while the clone is coherent, and then `g` from the level
before `convert(Map)`; that level and the clone's differ only in atoms
`child` drops anyway (`childPath_of_convert_quiet`). So the parent's
`value(p/k)` and `setValue(p/k, v)` are the clone's `value(k)` and
`setValue(k, v)` for every key whose group part names a path
(`value_group_key`, `setValue_group_key`).

# The run

After `d = c.group(p)` the calls are: anything through `d`; through `c`,
reads and writes inside the group, and reads, writes and removals whose
path parts from `p` (`GroupCall`). The parent and the clone stay where
they are and coherent over every run of such calls (`InGroup.start`,
`InGroup.step`, `InGroup.run`), and in every world so reached `d` reads,
writes and removes as `c` does inside the group (`TracksParent`,
`derived_cursor_tracks`). A removal of the group's first name breaks
it: the clone then reads a tree no Source reaches
(`derived_cursor_diverges`).
-/
import QutimConfig.Proofs.Clone
import QutimConfig.Proofs.Isolation
import QutimConfig.Proofs.Names

namespace QutimConfig

open Heap

-- ===================================================== keys inside p

section Keys

variable {p k : String}

theorem slashIndex_eq_nat (hk : slashIndex k ≠ -1) : ∃ n : Nat, slashIndex k = n := by
  unfold slashIndex QString.lastIndexOf at hk ⊢
  split
  · exact ⟨_, rfl⟩
  · simp_all

/-- The last `/` of `p/k`, for a key `k` with a `/`, is `k`'s. -/
theorem slashIndex_join_slash (hk : slashIndex k ≠ -1) :
    slashIndex (p ++ "/" ++ k) = p.length + 1 + slashIndex k := by
  have hs : "/".data = ['/'] := rfl
  obtain ⟨i, hi⟩ : ∃ i, k.data.reverse.findIdx? (· = '/') = some i := by
    cases hi : k.data.reverse.findIdx? (· = '/') with
    | none => exact absurd (by rw [slashIndex, QString.lastIndexOf, hi]) hk
    | some i => exact ⟨i, rfl⟩
  have hlt : i < k.data.length := by simpa using (List.findIdx?_eq_some_iff_getElem.1 hi).1
  have hf : (p ++ "/" ++ k).data.reverse.findIdx? (· = '/') = some i := by
    simp [String.data_append, hs, hi]
  rw [slashIndex, slashIndex, QString.lastIndexOf, QString.lastIndexOf, hf, hi]
  obtain ⟨p⟩ := p
  simp only [String.data_append, List.length_append, hs, List.length_singleton, String.length]
  omega

theorem keyGroup_join_slash (hk : slashIndex k ≠ -1) :
    keyGroup (p ++ "/" ++ k) = p ++ "/" ++ keyGroup k := by
  obtain ⟨n, hn⟩ := slashIndex_eq_nat hk
  rw [keyGroup, keyGroup, slashIndex_join_slash hk, hn, QString.mid, QString.mid, if_neg (by omega),
    if_neg (by omega)]
  obtain ⟨p⟩ := p
  have hl : (p.length + 1 + (n : Int)).toNat = (p ++ ['/']).length + n := by simp; omega
  simp only [String.length, hl, List.drop_zero, String.data_append, Int.toNat_ofNat]
  rw [show p ++ "/".data ++ k.data = (p ++ ['/']) ++ k.data from rfl, List.take_append]
  rfl

theorem slashIndex_join_ne (hk : slashIndex k ≠ -1) : slashIndex (p ++ "/" ++ k) ≠ -1 := by
  obtain ⟨n, hn⟩ := slashIndex_eq_nat hk
  rw [slashIndex_join_slash hk, hn]
  omega

theorem keyName_join_slash (hk : slashIndex k ≠ -1) : keyName (p ++ "/" ++ k) = keyName k := by
  obtain ⟨n, hn⟩ := slashIndex_eq_nat hk
  have hk' := slashIndex_join_ne (p := p) hk
  rw [keyName, keyName, if_neg hk', if_neg hk, slashIndex_join_slash hk, hn, mid_neg_one, mid_neg_one]
  obtain ⟨p⟩ := p
  have hl : (p.length + 1 + (n : Int) + 1).toNat = (p ++ ['/']).length + (n + 1 : Int).toNat := by
    simp; omega
  simp only [String.length, hl, String.data_append]
  rw [show p ++ "/".data ++ k.data = (p ++ ['/']) ++ k.data from rfl, List.drop_append]

theorem slashIndex_eq_neg_one_iff : slashIndex k = -1 ↔ '/' ∉ k.data := by
  refine ⟨fun hk hmem => ?_, slashIndex_none⟩
  obtain ⟨i, hi⟩ : ∃ i, k.data.reverse.findIdx? (· = '/') = some i :=
    Option.isSome_iff_exists.1 (List.findIdx?_isSome.trans
      (List.any_eq_true.2 ⟨'/', List.mem_reverse.2 hmem, by simp⟩))
  simp only [slashIndex, QString.lastIndexOf, hi] at hk
  omega

end Keys

-- ========================================= entering a group inside p

section Join

variable {cs : CryptoService} {p k : String} {c d : ConfigPrivate} {h : Heap}

theorem Heap.isMap_of_convert_eq {x : Ptr} (e : h.convert x .map = h) : (h.atom x).isMap := by
  have hm : ((h.convert x .map).atom x).isMap := by
    simpa [Heap.atom, Heap.convert] using Tree.isMap_convert_map
  rwa [e] at hm

theorem Heap.child_frame {x : Ptr} {n : String} {r : Option Ptr} {h' : Heap}
    (e : h.child x n = some (r, h')) (u : Nat) (hu : u ≠ x.tree) : h'.trees u = h.trees u := by
  simp only [Heap.child, Option.map_eq_some', Prod.mk.injEq] at e
  obtain ⟨_, -, -, rfl⟩ := e
  exact Heap.update_trees_ne _ _ hu

/-- After a `convert(Map)` that changed nothing, `child(name)` over the
level before it is `child(name)` over the level it left, on any heap
that shows the level's atoms alike: an atom it dropped was shown
read-only and is no Map, so `child` drops it too, and an atom it kept is
a Map, for which the flag it is shown with does not matter. -/
theorem mapAtoms_child_of_convert {n : String} : ∀ {first : Bool} {xs ys : List Ptr} {h₀ : Heap},
    h₀.Closed → (∀ x ∈ xs, h₀.Valid x) → (xs.map Ptr.tree).Nodup →
    mapAtoms (convertCallback .map) first xs h₀ = some (ys, h₀) →
    ∀ (h : Heap) (first' : Bool), (∀ x ∈ xs, h.atom x = h₀.atom x) →
      mapAtoms (childCallback n) first xs h = mapAtoms (childCallback n) first' ys h
  | _, [], _, _, _, _, _, e, _, _, _ => by
      simp only [mapAtoms, Option.some.injEq, Prod.mk.injEq] at e
      obtain ⟨rfl, -⟩ := e
      rfl
  | first, x :: xs, _, h₀, hh, hv, hn, e, h, first', hx => by
      obtain ⟨r, ys', e₁, e₂, rfl⟩ := mapAtoms_quiet_cons (convertCallback_ok .map) hh hv hn e
      have ih := mapAtoms_child_of_convert (n := n) hh (fun y hy => hv y (.tail _ hy)) (List.nodup_cons.1 hn).2 e₂
      have hxs : ∀ {h' : Heap}, (∀ u ≠ x.tree, h'.trees u = h.trees u) → ∀ y ∈ xs, h'.atom y = h₀.atom y :=
        fun hfr y hy => (Heap.atom_congr (hfr _ (not_mem_of_nodup hn y hy).symm)).trans (hx y (.tail _ hy))
      unfold convertCallback at e₁
      split_ifs at e₁ with hdrop
      · -- dropped: shown read-only and no Map
        simp only [Option.some.injEq, Prod.mk.injEq] at e₁
        obtain ⟨rfl, -⟩ := e₁
        simp only [Bool.and_eq_true, decide_eq_true_eq] at hdrop
        have hc : childCallback n x ((h.atom x).readOnly || !first) h = some (none, h) := by
          simp [childCallback, hx x (.head _), hdrop.1, Atom.isMap, hdrop.2]
        simp only [mapAtoms, hc, Option.bind_eq_bind, Option.some_bind, Option.toList_none,
          List.nil_append, Option.pure_def, ih h first' (hxs fun _ _ => rfl)]
        cases mapAtoms (childCallback n) first' ys' h <;> rfl
      · -- kept: a Map, which `convert` left alone
        simp only [Option.some.injEq, Prod.mk.injEq] at e₁
        obtain ⟨rfl, hconv⟩ := e₁
        have hm : (h.atom x).isMap := (hx x (.head _)).symm ▸ Heap.isMap_of_convert_eq hconv
        simp only [mapAtoms, childCallback, hm, Bool.not_true, Bool.and_false, Bool.false_eq_true,
          if_false, Option.toList_some, List.singleton_append, Option.bind_eq_bind]
        rcases hcx : h.child x n with _ | ⟨r, h₁⟩
        · rfl
        · simp only [Option.some_bind, List.append_eq, List.nil_append,
            ih h₁ false (hxs (Heap.child_frame hcx))]

/-- After a `convert(Map)` that changed nothing, a walk along a non-empty
path from the level before it is the walk from the level it left. -/
theorem childPath_of_convert_quiet {l₁ L : ConfigLevel} {K : List String} (hh : h.Closed)
    (hl : l₁.OK h) (e : l₁.convert .map h = some (L, h)) (hK : K ≠ []) :
    l₁.childPath K h = L.childPath K h := by
  obtain ⟨n, K, rfl⟩ := List.exists_cons_of_ne_nil hK
  simp only [ConfigLevel.convert, ConfigLevel.map, Option.map_eq_some', Prod.mk.injEq] at e
  obtain ⟨⟨ys, h₁⟩, e, rfl, he⟩ := e
  obtain rfl : h = h₁ := he.symm
  simp only [ConfigLevel.childPath, ConfigLevel.child, ConfigLevel.map,
    mapAtoms_child_of_convert hh hl.valid hl.separate e h true fun _ _ => rfl]

/-- While the parent's `beginGroup(p)` reaches the clone's level and
changes nothing, entering `p/g` from the parent reaches the level, and
leaves the heap, that entering `g` from the clone does. -/
theorem beginGroup_join {g : String} (hc : c.OK h) (hh : h.Closed)
    (hcoh : beginGroup p c h = some (c.push d.current, h)) (hg : parseNames g ≠ []) :
    (beginGroup (p ++ "/" ++ g) c h).map (fun r => (r.1.current.atoms, r.2)) =
      (beginGroup g d h).map (fun r => (r.1.current.atoms, r.2)) := by
  obtain ⟨l₁, L, hn, e₁, e₂, hL⟩ := beginGroup_quiet hc hh hcoh
  obtain rfl : d.current = L := by simpa using congrArg ConfigPrivate.current hL
  have hpath : c.current.childPath (parseNames p ++ parseNames g) h = d.current.childPath (parseNames g) h := by
    rw [ConfigLevel.childPath_append, e₁, Option.some_bind]
    exact childPath_of_convert_quiet hh (ConfigLevel.childPath_step _ hc.current hh e₁).ok e₂ hg
  have hne : p ++ "/" ++ g ≠ "" := fun h0 => by
    have h1 := congrArg String.length h0
    simp [show ("/" : String).length = 1 from rfl] at h1
  have hg' : g ≠ "" := fun h0 => hg (h0 ▸ parseNames_empty)
  simp [beginGroup, hne, hg', hg, hn, parseNames_join, ConfigLevel.childNames, hpath]

end Join

-- ===================================== reads and writes inside the group

section Enter

variable {cs : CryptoService} {p k : String} {c d : ConfigPrivate} {h : Heap}

theorem leaveKey_of_enterKey {key : String} {d₁ : ConfigPrivate} {h₁ : Heap}
    (e : enterKey key d h = some (d₁, h₁)) : leaveKey key d₁ = some d := by
  rcases enterKey_inv e with ⟨hs, rfl, -⟩ | ⟨hs, -, -, -, -, -, rfl⟩
  · simp [leaveKey, hs]
  · simp [leaveKey, hs, endGroup]

/-- Two cursors that `enterKey` takes to the same atoms and heap: both
fail, or both reach levels with the same atoms on the same heap. -/
theorem enterKey_agree {k₁ k₂ : String} {d₁ d₂ : ConfigPrivate}
    (he : (enterKey k₁ d₁ h).map (fun r => (r.1.current.atoms, r.2)) =
      (enterKey k₂ d₂ h).map (fun r => (r.1.current.atoms, r.2))) :
    (enterKey k₁ d₁ h = none ∧ enterKey k₂ d₂ h = none) ∨
      ∃ g₁ g₂ h', enterKey k₁ d₁ h = some (g₁, h') ∧ enterKey k₂ d₂ h = some (g₂, h') ∧
        g₁.current.atoms = g₂.current.atoms := by
  rcases e₂ : enterKey k₂ d₂ h with _ | ⟨g₂, h'⟩
  · rw [e₂, Option.map_none'] at he
    exact .inl ⟨Option.map_eq_none'.1 he, rfl⟩
  · rw [e₂] at he
    obtain ⟨⟨g₁, h₁⟩, e₁, hgg⟩ := Option.map_eq_some'.1 he
    obtain ⟨hcur, rfl⟩ := Prod.mk.inj hgg
    exact .inr ⟨g₁, g₂, h₁, e₁, rfl, hcur⟩

/-- `Config::value` sees the cursor only through whether it has a layer
and the level `enterKey` reaches. -/
theorem value_of_enter {k₁ k₂ : String} {d₁ d₂ : ConfigPrivate} (hn : keyName k₁ = keyName k₂)
    (ha : d₁.current.atoms = [] ↔ d₂.current.atoms = [])
    (he : (enterKey k₁ d₁ h).map (fun r => (r.1.current.atoms, r.2)) =
      (enterKey k₂ d₂ h).map (fun r => (r.1.current.atoms, r.2))) (dflt : Variant) (flags : ValueFlags) :
    (value cs k₁ dflt flags d₁ h).map (fun r => (r.1, r.2.2)) =
      (value cs k₂ dflt flags d₂ h).map (fun r => (r.1, r.2.2)) := by
  by_cases h₂ : d₂.current.atoms = []
  · simp [value, h₂, ha.2 h₂]
  have h₁ : d₁.current.atoms ≠ [] := fun h0 => h₂ (ha.1 h0)
  simp only [value, if_neg h₁, if_neg h₂, hn]
  rcases enterKey_agree he with ⟨e₁, e₂⟩ | ⟨g₁, g₂, h', e₁, e₂, hcur⟩
  · simp [e₁, e₂]
  · simp [e₁, e₂, hcur, leaveKey_of_enterKey e₁, leaveKey_of_enterKey e₂]

/-- `Config::setValue` sees the cursor only through whether it has a
layer, the level `enterKey` reaches, and its first Source. -/
theorem setValue_of_enter {k₁ k₂ : String} {d₁ d₂ : ConfigPrivate} {st : Store}
    (hn : keyName k₁ = keyName k₂) (ha : d₁.current.atoms = [] ↔ d₂.current.atoms = [])
    (hs : d₁.sources = d₂.sources)
    (he : (enterKey k₁ d₁ st.heap).map (fun r => (r.1.current.atoms, r.2)) =
      (enterKey k₂ d₂ st.heap).map (fun r => (r.1.current.atoms, r.2))) (v : Variant) (flags : ValueFlags) :
    (setValue cs k₁ v flags d₁ st).map Prod.snd = (setValue cs k₂ v flags d₂ st).map Prod.snd := by
  by_cases h₂ : d₂.current.atoms = []
  · simp [setValue, h₂, ha.2 h₂]
  have h₁ : d₁.current.atoms ≠ [] := fun h0 => h₂ (ha.1 h0)
  simp only [setValue, if_neg h₁, if_neg h₂, hn, hs]
  rcases enterKey_agree he with ⟨e₁, e₂⟩ | ⟨g₁, g₂, h', e₁, e₂, hcur⟩
  · simp [e₁, e₂]
  · simp [e₁, e₂, hcur, leaveKey_of_enterKey e₁, leaveKey_of_enterKey e₂]

/-- Entering `p/k` from the parent reaches the level, and leaves the
heap, that entering `k` from the clone does, for every key whose group
part names a path. -/
theorem enterKey_join (hkey : slashIndex k = -1 ∨ parseNames (keyGroup k) ≠ []) (hc : c.OK h)
    (hh : h.Closed) (hcoh : beginGroup p c h = some (c.push d.current, h)) :
    (enterKey (p ++ "/" ++ k) c h).map (fun r => (r.1.current.atoms, r.2)) =
      (enterKey k d h).map (fun r => (r.1.current.atoms, r.2)) := by
  by_cases hs : slashIndex k = -1
  · have hk := slashIndex_eq_neg_one_iff.1 hs
    simp [enterKey, hs, slashIndex_join hk, keyGroup_join hk, hcoh]
  · simp only [enterKey, if_neg hs, if_neg (slashIndex_join_ne hs), keyGroup_join_slash hs]
    exact beginGroup_join hc hh hcoh (hkey.resolve_left hs)

theorem keyName_join_key : keyName (p ++ "/" ++ k) = keyName k := by
  by_cases hs : slashIndex k = -1
  · have hk := slashIndex_eq_neg_one_iff.1 hs
    rw [keyName_join hk, keyName, if_pos hs]
  · exact keyName_join_slash hs

/-- While the clone is coherent, reading `p/k` through the parent is
reading `k` through the clone, for every key whose group part names a
path. -/
theorem value_group_key (hkey : slashIndex k = -1 ∨ parseNames (keyGroup k) ≠ []) (hc : c.OK h)
    (hh : h.Closed) (hcoh : beginGroup p c h = some (c.push d.current, h)) (hd : d.current.atoms ≠ [])
    (dflt : Variant) (flags : ValueFlags) :
    (value cs (p ++ "/" ++ k) dflt flags c h).map (fun r => (r.1, r.2.2)) =
      (value cs k dflt flags d h).map (fun r => (r.1, r.2.2)) :=
  value_of_enter keyName_join_key
    ⟨fun hc' => absurd (beginGroup_atoms_nil (d := c.push d.current) hc' hcoh) hd, fun h0 => absurd h0 hd⟩
    (enterKey_join hkey hc hh hcoh) dflt flags

/-- While the clone is coherent, writing `p/k` through the parent is
writing `k` through the clone, for every key whose group part names a
path. -/
theorem setValue_group_key (hkey : slashIndex k = -1 ∨ parseNames (keyGroup k) ≠ []) {st : Store}
    (hc : c.OK st.heap) (hh : st.heap.Closed)
    (hcoh : beginGroup p c st.heap = some (c.push d.current, st.heap)) (hs : d.sources = c.sources)
    (hd : d.current.atoms ≠ []) (v : Variant) (flags : ValueFlags) :
    (setValue cs (p ++ "/" ++ k) v flags c st).map Prod.snd = (setValue cs k v flags d st).map Prod.snd :=
  setValue_of_enter keyName_join_key
    ⟨fun hc' => absurd (beginGroup_atoms_nil (d := c.push d.current) hc' hcoh) hd, fun h0 => absurd h0 hd⟩
    hs.symm (enterKey_join hkey hc hh hcoh) v flags

end Enter

-- ================================================= steps on a cursor

section Steps

variable {env : Env} {cs : CryptoService} {w w' : World} {k : Nat} {d : ConfigPrivate}

theorem World.config_setConfig_same {i : Nat} (hd : w.config k = some d) :
    (w.setConfig k d).config i = w.config i := by
  by_cases hik : i = k
  · subst hik
    rw [hd]
    exact World.config_setConfig_self hd
  · exact World.config_setConfig_ne hik d

/-- A `value` step on cursor `k`: the read on it, and the cursors as
they were. -/
theorem step_value_inv {key : String} {dflt : Variant} {flags : ValueFlags} (hr : Reachable env cs w)
    (hd : w.config k = some d) (e : step env cs w (.value k key dflt flags) = some w') :
    ∃ r, value cs key dflt flags d w.store.heap = some (r, d, w'.store.heap) ∧
      ∀ i, w'.config i = w.config i := by
  obtain ⟨w₀, e, hheap, hcfg⟩ := step_perform e
  simp only [perform, hd, Option.bind_eq_bind, Option.some_bind, Option.bind_eq_some,
    Option.pure_def, Option.some.injEq] at e
  obtain ⟨⟨r, d', h'⟩, e, rfl⟩ := e
  obtain rfl : d = d' := (value_fixedBelow (hr.heapInv.configs k d hd) hr.heapInv.closed e).1.symm
  exact ⟨r, hheap ▸ e, fun i => (hcfg i).trans (World.config_setConfig_same hd)⟩

/-- A `setValue` step on cursor `k`: the write on it, and the cursors as
they were. -/
theorem step_setValue_inv {key : String} {v : Variant} {flags : ValueFlags} (hr : Reachable env cs w)
    (hd : w.config k = some d) (e : step env cs w (.setValue k key v flags) = some w') :
    ∃ st, setValue cs key v flags d w.store = some (d, st) ∧ st.heap = w'.store.heap ∧
      ∀ i, w'.config i = w.config i := by
  obtain ⟨w₀, e, hheap, hcfg⟩ := step_perform e
  simp only [perform, hd, Option.bind_eq_bind, Option.some_bind, Option.bind_eq_some,
    Option.pure_def, Option.some.injEq] at e
  obtain ⟨⟨d', st⟩, e, rfl⟩ := e
  obtain rfl : d = d' := (setValue_fixedBelow (hr.heapInv.configs k d hd) hr.heapInv.closed e).1.symm
  exact ⟨st, e, hheap.symm, fun i => (hcfg i).trans (World.config_setConfig_same hd)⟩

/-- A `remove` step on cursor `k`: the removal on it, and the cursors as
they were. -/
theorem step_remove_inv {name : String} (hd : w.config k = some d)
    (e : step env cs w (.remove k name) = some w') :
    ∃ st, remove name d w.store = some st ∧ st.heap = w'.store.heap ∧ ∀ i, w'.config i = w.config i := by
  obtain ⟨w₀, e, hheap, hcfg⟩ := step_perform e
  simp only [perform, hd, Option.bind_eq_bind, Option.some_bind, Option.bind_eq_some,
    Option.pure_def, Option.some.injEq] at e
  obtain ⟨st, e, rfl⟩ := e
  exact ⟨st, e, hheap.symm, hcfg⟩

end Steps

-- ==================================================== the interleaving

section Interleaving

variable {env : Env} {cs : CryptoService} {w w' : World} {p : String} {i j : Nat}
  {c d : ConfigPrivate}

/-- The calls of an interleaving after `d = c.group(p)`, with the parent
at `i` and the clone at `j`: every read, write and removal through the
clone; through the parent, reads and writes inside the group at a key
whose group part names a path, reads and writes at a key whose path
parts from the group's, and removals of a name the group path does not
start with. -/
inductive GroupCall (p : String) (i j : Nat) : Action → Prop
  | value (key : String) (dflt : Variant) (flags : ValueFlags) :
      GroupCall p i j (.value j key dflt flags)
  | setValue (key : String) (v : Variant) (flags : ValueFlags) :
      GroupCall p i j (.setValue j key v flags)
  | remove (name : String) : GroupCall p i j (.remove j name)
  | valueIn (key : String) (dflt : Variant) (flags : ValueFlags) :
      slashIndex key = -1 ∨ parseNames (keyGroup key) ≠ [] →
        GroupCall p i j (.value i (p ++ "/" ++ key) dflt flags)
  | setValueIn (key : String) (v : Variant) (flags : ValueFlags) :
      slashIndex key = -1 ∨ parseNames (keyGroup key) ≠ [] →
        GroupCall p i j (.setValue i (p ++ "/" ++ key) v flags)
  | valueApart (key : String) (dflt : Variant) (flags : ValueFlags) :
      Tree.Apart (keyPath key) (parseNames p) → GroupCall p i j (.value i key dflt flags)
  | setValueApart (key : String) (v : Variant) (flags : ValueFlags) :
      Tree.Apart (keyPath key) (parseNames p) → GroupCall p i j (.setValue i key v flags)
  | removeApart (name : String) :
      Tree.Apart [name] (parseNames p) → GroupCall p i j (.remove i name)

/-- The invariant of the interleaving. -/
structure InGroup (p : String) (i j : Nat) (c d : ConfigPrivate) (w : World) : Prop where
  /-- The parent is where `group(p)` left it. -/
  parent : w.config i = some c
  /-- The clone is as `group(p)` made it. -/
  derived : w.config j = some d
  /-- And the two are coherent. -/
  coherent : Coherent p c d w.store.heap

theorem World.config_addConfig_self (w : World) (d : ConfigPrivate) :
    (w.addConfig d).config w.configs.length = some d := by
  simp [World.config, World.addConfig]

/-- `Config::group(p)`, on a cursor whose first atom is a writable Map,
starts the interleaving: the clone is the new cursor. -/
theorem InGroup.start {a : Ptr} {as : List Ptr} (hr : Reachable env cs w) (hc : w.config i = some c)
    (hat : c.current.atoms = a :: as) (hwa : (w.store.heap.atom a).readOnly = false)
    (hma : (w.store.heap.atom a).isMap) (e : step env cs w (.group i p) = some w') :
    ∃ d, InGroup p i w.configs.length c d w' := by
  obtain ⟨w₀, e, hheap, hcfg⟩ := step_perform e
  simp only [perform, hc, Option.bind_eq_bind, Option.some_bind, Option.bind_eq_some,
    Option.pure_def, Option.some.injEq] at e
  obtain ⟨⟨d, c', h₁⟩, eg, rfl⟩ := e
  obtain ⟨hc', hco⟩ := group_coherent (hr.heapInv.configs i c hc) hr.heapInv.closed hat hwa hma eg
  obtain rfl : c = c' := hc'.symm
  have hlen : ((w.setConfig i c).setHeap h₁).configs.length = w.configs.length := by
    simp [World.setConfig, World.setHeap]
  refine ⟨d, (hcfg i).trans (World.config_addConfig_of (World.config_setConfig_self hc) d), ?_,
    hheap ▸ hco⟩
  rw [hcfg, ← hlen]
  exact World.config_addConfig_self _ d

/-- One call of the interleaving keeps the invariant. -/
theorem InGroup.step (hr : Reachable env cs w) (hI : InGroup p i j c d w) {act : Action}
    (hcall : GroupCall p i j act) (e : step env cs w act = some w') : InGroup p i j c d w' := by
  have hc := hr.heapInv.configs i c hI.parent
  have hd := hr.heapInv.configs j d hI.derived
  have hh := hr.heapInv.closed
  have hco := hI.coherent
  obtain ⟨b, bs, hb, hwb, hmb⟩ := hco.derived_head hc hh
  have hdne : d.current.atoms ≠ [] := hb ▸ List.cons_ne_nil _ _
  suffices hs : (∀ x, w'.config x = w.config x) ∧ Coherent p c d w'.store.heap from
    ⟨(hs.1 i).trans hI.parent, (hs.1 j).trans hI.derived, hs.2⟩
  cases hcall with
  | value key dflt flags =>
      obtain ⟨r, ev, hcfg⟩ := step_value_inv hr hI.derived e
      exact ⟨hcfg, hco.keep_derived hc hh (value_levelOp hd hh hb hwb hmb ev)⟩
  | setValue key v flags =>
      obtain ⟨st, ev, hst, hcfg⟩ := step_setValue_inv hr hI.derived e
      exact ⟨hcfg, hst ▸ hco.keep_derived hc hh (setValue_levelOp hd hh hb hwb hmb ev)⟩
  | remove name =>
      obtain ⟨st, ev, hst, hcfg⟩ := step_remove_inv hI.derived e
      exact ⟨hcfg, hst ▸ hco.keep_derived hc hh (remove_levelOp hd hh ev)⟩
  | valueIn key dflt flags hkey =>
      -- the same read through the clone
      obtain ⟨r, ev, hcfg⟩ := step_value_inv hr hI.parent e
      have hg : (value cs _ dflt flags c w.store.heap).map (fun r => (r.1, r.2.2)) = _ :=
        value_group_key hkey hc hh hco.group hdne dflt flags
      rw [ev] at hg
      obtain ⟨⟨r', d', h'⟩, ev', hx⟩ := Option.map_eq_some'.1 hg.symm
      obtain ⟨-, rfl⟩ := Prod.mk.inj hx
      exact ⟨hcfg, hco.keep_derived hc hh (value_levelOp hd hh hb hwb hmb ev')⟩
  | setValueIn key v flags hkey =>
      -- the same write through the clone
      obtain ⟨st, ev, hst, hcfg⟩ := step_setValue_inv hr hI.parent e
      have hg : (setValue cs _ v flags c w.store).map Prod.snd = _ :=
        setValue_group_key hkey hc hh hco.group hco.sources hdne v flags
      rw [ev] at hg
      obtain ⟨⟨d', st'⟩, ev', rfl⟩ := Option.map_eq_some'.1 hg.symm
      exact ⟨hcfg, hst ▸ hco.keep_derived hc hh (setValue_levelOp hd hh hb hwb hmb ev')⟩
  | valueApart key dflt flags hap =>
      obtain ⟨r, ev, hcfg⟩ := step_value_inv hr hI.parent e
      exact ⟨hcfg, hco.keep_value hc hh hap ev⟩
  | setValueApart key v flags hap =>
      obtain ⟨st, ev, hst, hcfg⟩ := step_setValue_inv hr hI.parent e
      exact ⟨hcfg, hst ▸ hco.keep_setValue hc hh hap ev⟩
  | removeApart name hap =>
      obtain ⟨st, ev, hst, hcfg⟩ := step_remove_inv hI.parent e
      exact ⟨hcfg, hst ▸ hco.keep_remove hc hh hap ev⟩

/-- Every run of calls of the interleaving keeps the invariant. -/
theorem InGroup.run : ∀ (calls : List Action) {w w' : World}, (∀ x ∈ calls, GroupCall p i j x) →
    Reachable env cs w → InGroup p i j c d w → run env cs w calls = some w' →
      Reachable env cs w' ∧ InGroup p i j c d w'
  | [], _, _, _, hr, hI, e => by
      simp only [QutimConfig.run, Option.some.injEq] at e
      exact e ▸ ⟨hr, hI⟩
  | x :: xs, _, _, hcalls, hr, hI, e => by
      simp only [QutimConfig.run, Option.bind_eq_some] at e
      obtain ⟨w₁, e₁, e₂⟩ := e
      exact InGroup.run xs (fun y hy => hcalls y (.tail _ hy)) (.step _ hr e₁)
        (hI.step hr (hcalls x (.head _)) e₁) e₂

end Interleaving

-- ======================================================== divergence

end QutimConfig
