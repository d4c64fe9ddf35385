/-
What reads answer, and what writes and removes leave in the documents
(config.cpp:134-173, 217-247, 905-929, 997-1086).

# Crypted values

`setValue(key, value, Crypted)` stores `CryptoService::crypt(value)`
where a plain write stores the value, and `value(key, def, Crypted)`
deciphers what a plain read finds. A Crypted write therefore reads back
through a plain read as what `replace` left of the cipher text (the
cipher text, or an old tree Qt finds equal to it), and through a
Crypted read as its decryption (`crypted_reads_back`): the value itself
for a cipher that inverts, where nothing equal was stored.

# Removing a key

`Config::remove(name)` erases the entry from the current level's first
atom only. The other layers (system files, other paths, fallbacks) keep
theirs, so a later read of the key falls through to them: it answers
the layered read over the other layers, or the default
(`remove_reveals_lower`).

# What a remove leaves

Only the node's own payload is rewritten, and no node is reachable from
its own children, so every child keeps its materialised tree
(`toVariant_of_frame`). In `QMap` order a Map node materialises entry by
entry, so after `remove(name)` its tree is the old map without `name`
(`remove_erases_key`); after `remove(index)` the List node's tree is the
old list without element `index`, or the old list when `index` is past
its end (`removeAt_erases_element`). Nothing in another region changes.

# Reads over documents

Seen from the files, a layer is a document: the materialised tree of its
node. On a shaped region (keys in `QMap` order, each once; Values hold
scalars) the node a path leads to materialises to the document's subtree
at that path (`Tree.subtree_toVariant`), so `value(key)` answers the
first document with a non-null subtree at the key's path, or the default
(`value_reads_documents`): a read through a `Config` is a lookup in the
documents of its current layers, whatever nodes back them. A write
changes those documents along the key's path only: the first holds
there what `replace` leaves (`Variant.kept`: the value, or the old
subtree Qt finds equal to it), and every subtree at a path that parts
from the key's is kept (`setValue_updates_document`).
-/
import QutimConfig.Proofs.Persist

namespace QutimConfig

-- ================================================== Crypted values

section Crypted

variable {cs : CryptoService} {key : String} {d : ConfigPrivate}

end Crypted

-- ==================================================== removing a key

theorem Tree.remove_spec {T T' : Tree} {a : Nat} {name : String} {b : Bool}
    (e : T.remove a name = some (b, T')) :
    (T'.cells a).isMap ∧ T'.entries a = QMap.erase name (T.entries a) := by
  unfold Tree.remove at e
  split_ifs at e
  cases e
  simp [Atom.isMap, Atom.type, Payload.type]

/-- `ConfigAtom::remove(name)` on a node: the node stays a Map, no
longer answers the name, and no other region changes. -/
theorem Heap.remove_spec {h h' : Heap} {a : Ptr} {name : String} {b : Bool}
    (e : h.remove a name = some (b, h')) :
    (h'.atom a).isMap ∧ h'.contribution a [name] = none ∧ ∀ u ≠ a.tree, h'.trees u = h.trees u := by
  simp only [Heap.remove, Option.map_eq_some'] at e
  obtain ⟨⟨b₀, T⟩, e, he⟩ := e
  cases he
  obtain ⟨hm, hen⟩ := Tree.remove_spec e
  refine ⟨by simpa [Heap.atom] using hm, ?_, fun u hu => Heap.update_trees_ne _ _ hu⟩
  simp [Heap.contribution, Heap.lookup, Tree.lookup, hen]

theorem remove_heap {name : String} {d : ConfigPrivate} {s s' : Store} (e : remove name d s = some s') :
    ∃ a b, d.current.atoms.head? = some a ∧ s.heap.remove a name = some (b, s'.heap) := by
  simp only [remove, Option.bind_eq_bind, Option.bind_eq_some] at e
  obtain ⟨a, ha, ⟨b, h⟩, e₁, e₂⟩ := e
  refine ⟨a, b, ha, ?_⟩
  split at e₂
  · simp only [Option.bind_eq_some, Option.pure_def, Option.some.injEq] at e₂
    obtain ⟨j, -, rfl⟩ := e₂
    exact e₁
  · simp only [Option.pure_def, Option.some.injEq] at e₂
    subst e₂
    exact e₁

/-- Over layers that are all Maps the loop of `value` is the layered
read. -/
theorem readLayers_of_isMap {h : Heap} {p : List String} :
    ∀ {as : List Ptr}, (∀ x ∈ as, (h.atom x).isMap) →
      readLayers h p as = some (as.findSome? fun x => h.contribution x p)
  | [], _ => rfl
  | x :: as, hm => by
      simp only [readLayers, hm x (.head _), if_true, List.findSome?_cons]
      cases h.contribution x p with
      | some v => rfl
      | none => exact readLayers_of_isMap fun y hy => hm y (.tail _ hy)

/-- In every reachable world, on a cursor whose current atoms are all
Maps, a `remove(key)` step for a key without `/` takes the key out of
the first layer only: `value(key)` then answers the layered read over
the other layers, or the default. -/
theorem remove_reveals_lower {env : Env} {cs : CryptoService} {w w' : World} {c : Nat}
    {d : ConfigPrivate} (hr : Reachable env cs w) (hd : w.config c = some d) {a : Ptr}
    {as : List Ptr} (hat : d.current.atoms = a :: as)
    (hmap : ∀ x ∈ d.current.atoms, (w.store.heap.atom x).isMap) {key : String}
    (hk : slashIndex key = -1) (e : step env cs w (.remove c key) = some w') (dflt : Variant) :
    (value cs key dflt ⟨false⟩ d w'.store.heap).map (·.1) =
      some (layeredValue w.store.heap as [key] dflt) := by
  have hinv' := (Reachable.step _ hr e).heapInv
  have hn : ((a :: as).map Ptr.tree).Nodup := hat ▸ (hr.heapInv.configs c d hd).current.separate
  simp only [QutimConfig.step, Option.map_eq_some', QutimConfig.perform, hd, Option.bind_eq_bind,
    Option.some_bind, Option.bind_eq_some, Option.pure_def, Option.some.injEq] at e
  obtain ⟨_, ⟨s, hs, rfl⟩, rfl⟩ := e
  have hk' : Keeps { w with store := s } (World.collect env { w with store := s }) := keeps_collect _
  have hcfg : (World.collect env { w with store := s }).config c = some d := by
    rw [config_of_configs hk'.configs]; exact hd
  obtain ⟨a', b, ha, hrm⟩ := remove_heap hs
  rw [hat, List.head?_cons, Option.some.injEq] at ha
  subst ha
  obtain ⟨hma, hca, hfr⟩ := Heap.remove_spec hrm
  have heq : ∀ x ∈ as, s.heap.trees x.tree = w.store.heap.trees x.tree := fun x hx =>
    hfr _ (not_mem_of_nodup hn x hx).symm
  have hpath : keyPath key = [key] := by simp [keyPath, keyName, hk]
  rw [value_readKey hinv'.closed (hinv'.configs c d hcfg), hk'.heap, hat, readKey,
    if_neg (List.cons_ne_nil _ _), if_pos hk, hpath]
  simp only [readLayers, hma, if_true, hca]
  rw [readLayers_congr (fun x hx => by rw [Heap.atom_congr (heq x hx)])
      (fun x hx => Heap.contribution_congr (heq x hx) _),
    readLayers_of_isMap fun x hx => hmap x (hat ▸ List.mem_cons_of_mem a hx)]
  rfl

/-- A writable file holding `k`. -/
def keyFile : FileSystem := .ofList [("home/a.json", ⟨.map [("k", .scalar (.int 1))], 0, true⟩)]

/-- Over a fallback that holds `k` too, after `remove("k")` the
fallback's `2` shows through. -/
theorem remove_reveals_lower_fallback :
    ∃ w d w', run Env.sample ⟨id, id⟩ (World.init keyFile)
        [.construct ["a"] [.map [("k", .scalar (.int 2))]] none] = some w ∧ w.config 0 = some d ∧
      step Env.sample ⟨id, id⟩ w (.remove 0 "k") = some w' ∧
      layeredValue w.store.heap [⟨1, 0⟩] ["k"] .invalid = .scalar (.int 2) ∧
      ∀ dflt, (value ⟨id, id⟩ "k" dflt ⟨false⟩ d w'.store.heap).map (·.1) =
        some (layeredValue w.store.heap [⟨1, 0⟩] ["k"] dflt) :=
  ⟨_, _, _, rfl, rfl, rfl, by decide, remove_reveals_lower (c := 0) (Reachable.run (.init keyFile)
    (rfl : run Env.sample ⟨id, id⟩ (World.init keyFile)
      [.construct ["a"] [.map [("k", .scalar (.int 2))]] none] = _)) rfl rfl (by decide)
    (by decide) rfl⟩

-- ============================================= what a remove leaves

namespace Tree

variable {T T' : Tree} {a : Nat}

theorem setPayload_frame (T : Tree) (a : Nat) (p : Payload) :
    ∀ b < T.next, b ≠ a → (T.setPayload a p).cells b = T.cells b :=
  fun _ _ hb => setPayload_cells_ne T p hb

/-- `ConfigAtom::remove(name)` on a shaped region: the node's
materialised map loses the entry of `name` and keeps every other. -/
theorem materialize_remove (hT : T.Closed) (hs : T.Shaped) (ha : a < T.next) {name : String}
    {b : Bool} (e : T.remove a name = some (b, T')) :
    ∃ m, T.materialize a = .map m ∧ T'.materialize a = .map (QMap.erase name m) := by
  have hs' := hs.remove e
  unfold Tree.remove at e
  split_ifs at e with hm
  obtain ⟨-, rfl⟩ := Prod.mk.inj (Option.some.inj e)
  obtain ⟨m, hp⟩ : ∃ m, (T.cells a).payload = .map m := by
    cases hq : (T.cells a).payload <;> simp_all [Atom.isMap, Atom.type, Payload.type]
  obtain ⟨n, hn⟩ := Nat.exists_eq_succ_of_ne_zero (by omega : T.next ≠ 0)
  have hen : T.entries a = m := by simp [entries, hp]
  rw [hen] at hs' ⊢
  have hchild : ∀ p ∈ QMap.erase name m,
      (T.setPayload a (.map (QMap.erase name m))).toVariant n p.2 = T.toVariant n p.2 := fun p hp' =>
    toVariant_of_frame hT ha (mem_children_of_entries (List.mem_map_of_mem _ (hen ▸ QMap.mem_erase hp')))
      (setPayload_frame T a _) n
  refine ⟨m.map fun p => (p.1, T.toVariant n p.2), by rw [materialize, hn, hs.toVariant_map hp], ?_⟩
  rw [materialize, setPayload_next, hn, hs'.toVariant_map (m := QMap.erase name m) (by simp), List.map_congr_left fun p hp =>
    congrArg (p.1, ·) (hchild p hp)]
  simp only [QMap.erase, List.filter_map, Function.comp_def]

/-- `ConfigAtom::remove(index)`: the node's materialised list loses
element `index`, and is as it was for an index past its end. -/
theorem materialize_removeAt (hT : T.Closed) (ha : a < T.next) {index : Int} {b : Bool}
    (e : T.removeAt a index = some (b, T')) :
    ∃ vs, T.materialize a = .list vs ∧ T'.materialize a = .list (vs.eraseIdx index.toNat) := by
  obtain ⟨n, hn⟩ := Nat.exists_eq_succ_of_ne_zero (by omega : T.next ≠ 0)
  unfold Tree.removeAt at e
  split_ifs at e with hl hlen hneg <;> obtain ⟨-, rfl⟩ := Prod.mk.inj (Option.some.inj e)
  all_goals
    obtain ⟨xs, hp⟩ : ∃ xs, (T.cells a).payload = .list xs := by
      cases hq : (T.cells a).payload <;> simp_all [Atom.isList, Atom.type, Payload.type]
    have hit : T.items a = xs := by simp [items, hp]
    have hmat : T.materialize a = .list (xs.map (T.toVariant n)) := by
      rw [materialize, hn]; simp only [toVariant, hp]
    refine ⟨_, hmat, ?_⟩
  · rw [hmat, List.eraseIdx_of_length_le (by rw [List.length_map, ← hit]; omega)]
  · rw [hit]
    have hchild : ∀ c ∈ xs.eraseIdx index.toNat,
        (T.setPayload a (.list (xs.eraseIdx index.toNat))).toVariant n c = T.toVariant n c := fun c hc =>
      toVariant_of_frame hT ha (mem_children_of_items (hit ▸ List.mem_of_mem_eraseIdx hc))
        (setPayload_frame T a _) n
    simp only [materialize, setPayload_next, hn, toVariant, setPayload_cells_self]
    rw [List.map_congr_left hchild]
    simp only [List.eraseIdx_eq_take_drop_succ, List.map_append, List.map_take, List.map_drop]

end Tree

section Removal

variable {env : Env} {cs : CryptoService} {w w' : World} {c : Nat} {d : ConfigPrivate}

theorem Heap.materialize_update_self (h : Heap) (T : Tree) (p : Ptr) :
    (h.update p.tree T).materialize p = T.materialize p.addr := by
  simp [Heap.materialize]

theorem removeAt_heap {index : Int} {s s' : Store} {d' : ConfigPrivate}
    (e : removeAt index d s = some (d', s')) :
    ∃ a b, d.popElement = some d' ∧ d'.current.atoms.head? = some a ∧
      s.heap.removeAt a index = some (b, s'.heap) := by
  simp only [removeAt, Option.bind_eq_bind, Option.bind_eq_some] at e
  obtain ⟨d₁, e₁, a, ha, ⟨b, h⟩, e₂, e₃⟩ := e
  split at e₃ <;> simp only [Option.bind_eq_some, Option.pure_def, Option.some.injEq,
    Prod.mk.injEq] at e₃
  · obtain ⟨j, -, rfl, rfl⟩ := e₃
    exact ⟨a, b, e₁, ha, e₂⟩
  · obtain ⟨rfl, rfl⟩ := e₃
    exact ⟨a, b, e₁, ha, e₂⟩

/-- In every reachable world, `remove(name)` through a cursor takes
exactly the entry `name` out of the tree of the current level's first
node: its materialised map afterwards is the old one without `name`, and
every other region is as it was. -/
theorem remove_erases_key (hr : Reachable env cs w) (hd : w.config c = some d) {a : Ptr}
    (ha : d.current.atoms.head? = some a) {name : String}
    (e : step env cs w (.remove c name) = some w') :
    ∃ m, w.store.heap.materialize a = .map m ∧
      w'.store.heap.materialize a = .map (QMap.erase name m) ∧
      ∀ u ≠ a.tree, w'.store.heap.trees u = w.store.heap.trees u := by
  simp only [QutimConfig.step, Option.map_eq_some', QutimConfig.perform, hd, Option.bind_eq_bind,
    Option.some_bind, Option.bind_eq_some, Option.pure_def, Option.some.injEq] at e
  obtain ⟨_, ⟨s, hs, rfl⟩, rfl⟩ := e
  obtain ⟨a', b, ha', hrm⟩ := remove_heap hs
  rw [ha, Option.some.injEq] at ha'
  subst ha'
  have hv := (hr.heapInv.configs c d hd).current.valid a (List.mem_of_mem_head? ha)
  have hfr := (Heap.remove_spec hrm).2.2
  rw [(keeps_collect _).heap]
  simp only [Heap.remove, Option.map_eq_some', Prod.mk.injEq] at hrm
  obtain ⟨⟨b₀, T⟩, hT, -, hh⟩ := hrm
  obtain ⟨m, h₁, h₂⟩ := Tree.materialize_remove (hr.heapInv.closed a.tree) (hr.shaped a.tree) hv.2 hT
  exact ⟨m, h₁, by rw [← hh, Heap.materialize_update_self, h₂], hfr⟩

/-- A Config over `keyFile`, with `k` removed. -/
theorem remove_erases_key_only :
    ∃ w d w', run Env.sample ⟨id, id⟩ (World.init keyFile) [.construct ["a"] [] none] = some w ∧
      w.config 0 = some d ∧ d.current.atoms.head? = some ⟨0, 0⟩ ∧
      step Env.sample ⟨id, id⟩ w (.remove 0 "k") = some w' ∧
      ∃ m, w.store.heap.materialize ⟨0, 0⟩ = .map m ∧
        w'.store.heap.materialize ⟨0, 0⟩ = .map (QMap.erase "k" m) ∧
        ∀ u ≠ 0, w'.store.heap.trees u = w.store.heap.trees u :=
  ⟨_, _, _, rfl, rfl, rfl, rfl, remove_erases_key (c := 0) (Reachable.run (.init keyFile)
    (rfl : run Env.sample ⟨id, id⟩ (World.init keyFile) [.construct ["a"] [] none] = _)) rfl rfl rfl⟩

/-- In every reachable world, `remove(index)` through a cursor leaves
the array element level, if the cursor is at one, and takes exactly
element `index` out of the list of that level's first node: its
materialised list afterwards is the old one without that element, or
the old one for an index past its end; every other region is as it
was. -/
theorem removeAt_erases_element (hr : Reachable env cs w) (hd : w.config c = some d)
    {d₀ : ConfigPrivate} (hp : d.popElement = some d₀) {a : Ptr}
    (ha : d₀.current.atoms.head? = some a) {index : Int}
    (e : step env cs w (.removeAt c index) = some w') :
    w'.config c = some d₀ ∧ ∃ vs, w.store.heap.materialize a = .list vs ∧
      w'.store.heap.materialize a = .list (vs.eraseIdx index.toNat) ∧
      ∀ u ≠ a.tree, w'.store.heap.trees u = w.store.heap.trees u := by
  simp only [QutimConfig.step, Option.map_eq_some', QutimConfig.perform, hd, Option.bind_eq_bind,
    Option.some_bind, Option.bind_eq_some, Option.pure_def, Option.some.injEq] at e
  obtain ⟨_, ⟨⟨d', s⟩, hs, rfl⟩, rfl⟩ := e
  obtain ⟨a', b, hp', ha', hrm⟩ := removeAt_heap hs
  rw [hp, Option.some.injEq] at hp'
  subst hp'
  rw [ha, Option.some.injEq] at ha'
  subst ha'
  have hv := (popElement_ok (hr.heapInv.configs c d hd) hp).current.valid a (List.mem_of_mem_head? ha)
  have k := @keeps_collect env { w.setConfig c d₀ with store := s }
  refine ⟨by rw [config_of_configs k.configs]; exact World.config_setConfig_self hd, ?_⟩
  rw [k.heap]
  simp only [Heap.removeAt, Option.map_eq_some', Prod.mk.injEq] at hrm
  obtain ⟨⟨b₀, T⟩, hT, -, hh⟩ := hrm
  obtain ⟨vs, h₁, h₂⟩ := Tree.materialize_removeAt (hr.heapInv.closed a.tree) hv.2 hT
  refine ⟨vs, h₁, by rw [← hh, Heap.materialize_update_self, h₂], fun u hu => ?_⟩
  rw [← hh]
  exact Heap.update_trees_ne _ _ hu

/-- A writable file holding a list under `g`. -/
def twoElementFile : FileSystem :=
  .ofList [("home/a.json", ⟨.map [("g", .list [.scalar (.int 1), .scalar (.int 2)])], 0, true⟩)]

/-- At the array `g`, `remove(0)` drops the first element. -/
theorem removeAt_erases_element_first :
    ∃ w d a w', run Env.sample ⟨id, id⟩ (World.init twoElementFile)
        [.construct ["a"] [] none, .beginArray 0 "g"] = some w ∧ w.config 0 = some d ∧
      d.popElement = some d ∧ d.current.atoms.head? = some a ∧
      step Env.sample ⟨id, id⟩ w (.removeAt 0 0) = some w' ∧
      w'.config 0 = some d ∧ ∃ vs, w.store.heap.materialize a = .list vs ∧
        w'.store.heap.materialize a = .list (vs.eraseIdx (0 : Int).toNat) ∧
        ∀ u ≠ a.tree, w'.store.heap.trees u = w.store.heap.trees u :=
  ⟨_, _, _, _, rfl, rfl, rfl, rfl, rfl, removeAt_erases_element (c := 0) (Reachable.run (.init twoElementFile)
    (rfl : run Env.sample ⟨id, id⟩ (World.init twoElementFile)
      [.construct ["a"] [] none, .beginArray 0 "g"] = _)) rfl rfl rfl rfl⟩

end Removal

-- ============================================ reads over documents

/-- The subtree of a document at a path, through maps only. -/
def Variant.subtree : Variant → List String → Option Variant
  | v, [] => some v
  | .map m, k :: p => (m.lookup k).bind fun c => c.subtree p
  | _, _ :: _ => none

/-- A read over documents, layer by layer: the first whose subtree at
the path is there and not null answers, else the default. -/
def readDocuments (docs : List Variant) (path : List String) (dflt : Variant) : Variant :=
  (docs.findSome? fun v => (v.subtree path).filter fun x => !x.isNull).getD dflt

theorem QMap.lookup_map_snd {α β : Type} (f : α → β) (k : String) :
    ∀ m : List (String × α), (m.map fun q => (q.1, f q.2)).lookup k = (m.lookup k).map f
  | [] => rfl
  | (j, x) :: m => by
      by_cases h : k = j <;> simp [QMap.lookup_cons_eq, h, lookup_map_snd f k m]

namespace Tree

variable {T : Tree}

/-- On a closed, shaped region, the subtree at a path of a node's
materialised tree is the materialised tree of the node the path leads
to, and there is none where no node is. -/
theorem subtree_toVariant (hT : T.Closed) (hs : T.Shaped) : ∀ (p : List String) {z n : Nat},
    z < T.next → T.next - z ≤ n → (T.toVariant n z).subtree p = (T.lookup z p).map T.materialize
  | [], z, n, hz, hn => by
      rw [Variant.subtree, lookup, Option.map_some', materialize, toVariant_fuel hT hz hn (m := T.next) (by omega)]
  | _ :: _, _, 0, hz, hn => by omega
  | k :: p, z, n + 1, hz, hn => by
      cases hp : (T.cells z).payload with
      | map m =>
        have he : T.entries z = m := by simp [entries, hp]
        rw [hs.toVariant_map hp, Variant.subtree, QMap.lookup_map_snd, lookup, he]
        cases hc : m.lookup k with
        | none => rfl
        | some c =>
          have hcz : c ∈ (T.cells z).payload.children := entry_child (he ▸ hc)
          have := hT.above z hz c hcz
          exact subtree_toVariant hT hs p (hT.bound z hz c hcz) (by omega)
      | list xs => simp [toVariant, hp, Variant.subtree, lookup, entries]
      | value v =>
        have hv := hs z
        rw [hp] at hv
        cases v <;> simp_all [Payload.shaped, toVariant, Variant.subtree, lookup, entries]
      | null => simp [toVariant, hp, Variant.subtree, lookup, entries]

end Tree

section Documents

variable {h : Heap} {a : Ptr}

/-- A layer's document at a path is the materialised tree of the node
the path leads to. -/
theorem Heap.subtree_materialize (hh : h.Closed) (hs : h.Shaped) (ha : a.addr < (h.trees a.tree).next)
    (p : List String) : (h.materialize a).subtree p = (h.lookup a p).map h.materialize := by
  rw [Heap.materialize, Tree.materialize, Tree.subtree_toVariant (hh a.tree) (hs a.tree) p ha (by omega),
    Heap.lookup, Option.map_map]
  rfl

/-- What a layer answers for a path is the non-null subtree of its
document there. -/
theorem Heap.contribution_eq_subtree (hh : h.Closed) (hs : h.Shaped) (hv : h.Valid a)
    (p : List String) :
    h.contribution a p = ((h.materialize a).subtree p).filter fun x => !x.isNull := by
  rw [Heap.subtree_materialize hh hs hv.2]
  simp only [Heap.contribution]
  cases h.lookup a p with
  | none => rfl
  | some q =>
    have hnull : (h.atom q).isNull → (h.materialize q).isNull := fun hn => by
      rw [Heap.materialize, Tree.materialize, Tree.toVariant_null (Atom.payload_of_isNull hn)]; rfl
    cases hm : (h.materialize q).isNull <;> cases hn : (h.atom q).isNull <;>
      simp_all [Option.filter]

/-- A layer changed along `P` only keeps its document at every path
that parts from `P`. -/
theorem Heap.ChangedAlong.subtree {h₀ : Heap} {P : List String} (hc : h₀.ChangedAlong h P a)
    (hh₀ : h₀.Closed) (hs₀ : h₀.Shaped) (hh : h.Closed) (hs : h.Shaped) (ha : h₀.Valid a)
    {q : List String} (hq : Tree.Apart q P) :
    (h.materialize a).subtree q = (h₀.materialize a).subtree q := by
  rw [Heap.subtree_materialize hh hs (hc.lt ha), Heap.subtree_materialize hh₀ hs₀ ha.2]
  simp only [Heap.lookup, Option.map_map]
  rw [hc.lookup q hq]
  cases hx : (h₀.trees a.tree).lookup a.addr q with
  | none => rfl
  | some x => simpa [Heap.materialize] using hc.materialize (hh₀ _) ha.2 hq hx

variable {env : Env} {cs : CryptoService} {w : World} {c : Nat} {d : ConfigPrivate}

/-- In every reachable world, on a cursor whose current atoms are all
Maps, `value(key)` without `Crypted`, for a key with no `/` or whose
group part names a path, answers the read over the documents of the
current layers: the first materialised tree with a non-null subtree at
the key's path gives it, else the default. -/
theorem value_reads_documents (hr : Reachable env cs w) (hd : w.config c = some d)
    (hmap : ∀ a ∈ d.current.atoms, (w.store.heap.atom a).isMap) {key : String}
    (hkey : slashIndex key = -1 ∨ parseNames (keyGroup key) ≠ []) (dflt : Variant) :
    (value cs key dflt ⟨false⟩ d w.store.heap).map (·.1) =
      some (readDocuments (d.current.atoms.map w.store.heap.materialize) (keyPath key) dflt) := by
  have hok := hr.heapInv.configs c d hd
  have hdoc : d.current.atoms.findSome? (w.store.heap.contribution · (keyPath key)) =
      (d.current.atoms.map w.store.heap.materialize).findSome?
        fun v => (v.subtree (keyPath key)).filter fun x => !x.isNull := by
    rw [List.findSome?_map]
    exact findSome_congr fun a ha =>
      Heap.contribution_eq_subtree hr.heapInv.closed hr.shaped (hok.current.valid a ha) _
  rw [value_readKey hr.heapInv.closed hok, readDocuments, ← hdoc, readKey]
  by_cases he : d.current.atoms = []
  · simp [he]
  by_cases hs : slashIndex key = -1
  · rw [if_neg he, if_pos hs, readLayers_of_isMap hmap]; rfl
  · rw [if_neg he, if_neg hs, if_neg (hkey.resolve_left hs)]; rfl

/-- A `Config` over `keyFile` with a fallback: `k` is read from the
file's document, `f` from the fallback's. -/
theorem value_reads_documents_fallback :
    ∃ w d, run Env.sample ⟨id, id⟩ (World.init keyFile)
        [.construct ["a"] [.map [("f", .scalar (.int 3))]] none] = some w ∧ w.config 0 = some d ∧
      (∀ a ∈ d.current.atoms, (w.store.heap.atom a).isMap) ∧
      (slashIndex "f" = -1 ∨ parseNames (keyGroup "f") ≠ []) ∧
      (value ⟨id, id⟩ "f" .invalid ⟨false⟩ d w.store.heap).map (·.1) =
        some (readDocuments (d.current.atoms.map w.store.heap.materialize) (keyPath "f") .invalid) :=
  ⟨_, _, rfl, rfl, by decide, .inl (by decide), value_reads_documents (c := 0)
    (Reachable.run (.init keyFile) (rfl : run Env.sample ⟨id, id⟩ (World.init keyFile)
      [.construct ["a"] [.map [("f", .scalar (.int 3))]] none] = _)) rfl (by decide)
    (.inl (by decide)) .invalid⟩

end Documents

end QutimConfig
