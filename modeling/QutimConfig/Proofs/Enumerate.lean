/-
`Config::childGroups`, `childKeys`, `hasChildGroup` and `hasChildKey`
(config.cpp:839-889): folds over `ConfigLevel::iterateMap`, the entries
of every Map atom of the current level in layer order.

# First occurrences

Each fold appends a key when its entry qualifies and the key is not
listed yet, which is the loop of core's `List.eraseDups`
(`foldl_firsts`): the lists are the qualifying keys once each, in
order of first occurrence. The test is per entry, so `childKeys` takes a
key that any layer maps to a non-Map, also one a higher layer maps to a
group (`childGroups_childKeys_firsts`, `childKeys_lists_lower_scalar`).
-/
import QutimConfig.Proofs.Effects

namespace QutimConfig


section Dedup

variable {α β : Type} [BEq α] [LawfulBEq α]

theorem mem_eraseDups_loop {x : α} : ∀ (l bs : List α),
    x ∈ List.eraseDups.loop l bs ↔ x ∈ l ∨ x ∈ bs
  | [], bs => by simp [List.eraseDups.loop]
  | a :: l, bs => by
      unfold List.eraseDups.loop
      split
      · next he =>
          rw [mem_eraseDups_loop l bs]
          have ha : a ∈ bs := by simpa using he
          constructor
          · rintro (h | h)
            · exact .inl (.tail _ h)
            · exact .inr h
          · rintro ((_ | ⟨_, h⟩) | h)
            · exact .inr ha
            · exact .inl h
            · exact .inr h
      · rw [mem_eraseDups_loop l (a :: bs)]
        simp only [List.mem_cons]
        tauto

theorem nodup_eraseDups_loop : ∀ (l bs : List α), bs.Nodup → (List.eraseDups.loop l bs).Nodup
  | [], bs, h => by simpa [List.eraseDups.loop] using h
  | a :: l, bs, h => by
      unfold List.eraseDups.loop
      split
      · exact nodup_eraseDups_loop l bs h
      · next he => exact nodup_eraseDups_loop l (a :: bs) (List.nodup_cons.2 ⟨by simpa using he, h⟩)

/-- A fold that appends `f e` for each `e` passing `p`, unless it is
there already, keeps the first occurrences: `eraseDups`' loop. -/
theorem foldl_firsts (p : β → Bool) (f : β → α) : ∀ (l : List β) (acc : List α),
    l.foldl (fun acc e => if p e && !acc.contains (f e) then acc ++ [f e] else acc) acc =
      List.eraseDups.loop ((l.filter p).map f) acc.reverse
  | [], acc => by simp [List.eraseDups.loop]
  | e :: l, acc => by
      have hr : acc.reverse.elem (f e) = acc.contains (f e) := by
        simp [List.contains, List.elem_eq_mem]
      rw [List.foldl_cons, List.filter_cons]
      cases hp : p e
      · simpa using foldl_firsts p f l acc
      · cases hc : acc.contains (f e)
        · simp only [hp, hc, Bool.not_false, Bool.and_self, if_true, List.map_cons,
            List.eraseDups.loop, hr, foldl_firsts p f l, List.reverse_append, List.reverse_singleton,
            List.singleton_append]
        · simp only [hp, hc, Bool.not_true, Bool.and_false, if_false, List.map_cons,
            List.eraseDups.loop, hr, foldl_firsts p f l, Bool.false_eq_true]

theorem mem_eraseDups {x : α} {l : List α} : x ∈ l.eraseDups ↔ x ∈ l := by
  simp [List.eraseDups, mem_eraseDups_loop]

theorem nodup_eraseDups (l : List α) : l.eraseDups.Nodup :=
  nodup_eraseDups_loop l [] List.nodup_nil

theorem foldl_firsts_nil (p : β → Bool) (f : β → α) (l : List β) :
    l.foldl (fun acc e => if p e && !acc.contains (f e) then acc ++ [f e] else acc) [] =
      ((l.filter p).map f).eraseDups :=
  foldl_firsts p f l []

end Dedup

theorem mem_iterateMap {l : ConfigLevel} {h : Heap} {e : String × Ptr} :
    e ∈ l.iterateMap h ↔ ∃ a ∈ l.atoms, (h.atom a).isMap ∧ e ∈ h.entries a := by
  simp only [ConfigLevel.iterateMap, List.mem_flatMap]
  constructor
  · rintro ⟨a, ha, he⟩
    split_ifs at he with hm
    · exact ⟨a, ha, hm, he⟩
    · cases he
  · rintro ⟨a, ha, hm, he⟩
    exact ⟨a, ha, by rwa [if_pos hm]⟩

/-- `childGroups` lists once each, in order of first occurrence, the
keys some Map atom of the current level maps to a Map, and `childKeys`
those some Map atom maps to a node that is not a Map, whatever the
other layers hold; `hasChildGroup` and `hasChildKey` hold exactly of
their members. -/
theorem childGroups_childKeys_firsts (d : ConfigPrivate) (h : Heap) :
    childGroups d h =
        (((d.current.iterateMap h).filter fun e => (h.atom e.2).isMap).map (·.1)).eraseDups ∧
    childKeys d h =
        (((d.current.iterateMap h).filter fun e => !(h.atom e.2).isMap).map (·.1)).eraseDups ∧
    (childGroups d h).Nodup ∧ (childKeys d h).Nodup ∧
    (∀ k, k ∈ childGroups d h ↔
      ∃ a ∈ d.current.atoms, (h.atom a).isMap ∧ ∃ c, (k, c) ∈ h.entries a ∧ (h.atom c).isMap) ∧
    (∀ k, k ∈ childKeys d h ↔
      ∃ a ∈ d.current.atoms, (h.atom a).isMap ∧ ∃ c, (k, c) ∈ h.entries a ∧ ¬(h.atom c).isMap) ∧
    (∀ k, hasChildGroup k d h = true ↔ k ∈ childGroups d h) ∧
    ∀ k, hasChildKey k d h = true ↔ k ∈ childKeys d h := by
  have hg : childGroups d h =
      (((d.current.iterateMap h).filter fun e => (h.atom e.2).isMap).map (·.1)).eraseDups :=
    foldl_firsts_nil _ _ _
  have hk : childKeys d h =
      (((d.current.iterateMap h).filter fun e => !(h.atom e.2).isMap).map (·.1)).eraseDups :=
    foldl_firsts_nil _ _ _
  have mg : ∀ k, k ∈ childGroups d h ↔ ∃ c, (k, c) ∈ d.current.iterateMap h ∧ (h.atom c).isMap := by
    intro k; simp [hg, mem_eraseDups]
  have mk : ∀ k, k ∈ childKeys d h ↔ ∃ c, (k, c) ∈ d.current.iterateMap h ∧ ¬(h.atom c).isMap := by
    intro k; simp [hk, mem_eraseDups]
  refine ⟨hg, hk, hg ▸ nodup_eraseDups _, hk ▸ nodup_eraseDups _, fun k => ?_, fun k => ?_,
    fun k => ?_, fun k => ?_⟩
  · rw [mg]; simp only [mem_iterateMap]; tauto
  · rw [mk]; simp only [mem_iterateMap]; tauto
  · rw [mg]
    simp only [hasChildGroup, List.any_eq_true, Bool.and_eq_true, beq_iff_eq, Prod.exists]
    exact ⟨fun ⟨_, c, he, hc, e⟩ => ⟨c, e ▸ he, hc⟩, fun ⟨c, he, hc⟩ => ⟨k, c, he, hc, rfl⟩⟩
  · rw [mk]
    simp only [hasChildKey, List.any_eq_true, Bool.and_eq_true, Bool.not_eq_true', beq_iff_eq,
      Prod.exists, Bool.not_eq_true]
    exact ⟨fun ⟨_, c, he, hc, e⟩ => ⟨c, e ▸ he, hc⟩, fun ⟨c, he, hc⟩ => ⟨k, c, he, hc, rfl⟩⟩

/-- `home/a.json` maps `k` to a group, `home/b.json` maps it to 1. -/
def groupOverScalar : FileSystem :=
  .ofList [("home/a.json", ⟨.map [("k", .map [])], 0, true⟩),
    ("home/b.json", ⟨.map [("k", .scalar (.int 1))], 0, true⟩)]

/-- Over `a` then `b`, the first layer holding `k` maps it to a Map, and
`childKeys` still lists `k`, for the lower layer's scalar. -/
theorem childKeys_lists_lower_scalar :
    ∃ w, run Env.sample ⟨id, id⟩ (World.init groupOverScalar) [.construct ["a", "b"] [] none] = some w ∧
      ∃ d a, w.config 0 = some d ∧ d.current.atoms.head? = some a ∧
        w.store.heap.materialize a = .map [("k", .map [])] ∧
        childKeys d w.store.heap = ["k"] ∧ childGroups d w.store.heap = ["k"] :=
  ⟨_, rfl, _, _, rfl, rfl, rfl, rfl, rfl⟩

end QutimConfig
