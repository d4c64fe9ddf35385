/-
The layered read (config.cpp:1023-1060, 614-680). `Config::value`
walks the current level's atoms, one per layer, and takes the first
non-null answer; a key with a group part first navigates every layer
along the group path (`ConfigLevel::child` per name, then `convert`),
where the first atom may be written to and the later ones are filtered.

`layeredValue` says what the read is for: the first layer whose node at
the key's path is there, is not Null and does not materialise to null;
the default when there is none. `value_layered` proves the code
computes it, in every reachable world.

# The simulation

`Follows h h' path as bs` relates the layers `as` of the level the read
started from (heap `h`) to the level `bs` navigation has reached (heap
`h'`): each layer is dropped, or has one atom that `Stands` for it —
the layer's own node at `path` in a region navigation left as it was,
or, where the layer has no Map at `path`, a node that carries nothing
(a Null, or an empty Map). A `ConfigLevel::map` keeps the relation when
its callback does per atom (`mapAtoms_follows`); `child` and `convert`
do (`childCallback_stands`, `convertCallback_stands`), whatever the
`first` flag and the nodes' own read-only flags, so every navigation
keeps it (`beginGroup_follows`). The value loop over a related level of
Maps computes `layeredValue` (`valueLoop_follows`).
-/
import QutimConfig.Proofs.Invariant

namespace QutimConfig

-- ====================================================== the spec

namespace Tree

/-- The node at `path` below `a`; every node on the way must be a Map
(any other node has no entries). -/
def lookup (T : Tree) (a : Nat) : List String → Option Nat
  | [] => some a
  | n :: ns => ((T.entries a).lookup n).bind fun c => T.lookup c ns

theorem lookup_append (T : Tree) (p q : List String) (a : Nat) :
    T.lookup a (p ++ q) = (T.lookup a p).bind fun b => T.lookup b q := by
  induction p generalizing a with
  | nil => simp [lookup]
  | cons n ns ih =>
      simp only [List.cons_append, lookup]
      cases (T.entries a).lookup n <;> simp [ih]

theorem lookup_snoc (T : Tree) (p : List String) (n : String) (a : Nat) :
    T.lookup a (p ++ [n]) = (T.lookup a p).bind fun b => (T.entries b).lookup n := by
  simp [lookup_append, lookup]

theorem entries_of_not_isMap {T : Tree} {a : Nat} (h : (T.cells a).isMap = false) :
    T.entries a = [] := by
  unfold entries
  split <;> simp_all [Atom.isMap, Atom.type, Payload.type]

end Tree

/-- A node that carries nothing: a Null, or a Map with no entries. -/
def Atom.Hollow (x : Atom) : Prop := x.payload = .null ∨ x.payload = .map []

theorem Tree.entries_of_hollow {T : Tree} {a : Nat} (h : (T.cells a).Hollow) :
    T.entries a = [] := by
  rcases h with h | h <;> simp [entries, h]

namespace Heap

/-- The node at `path` below `a`, in `a`'s region. -/
def lookup (h : Heap) (a : Ptr) (path : List String) : Option Ptr :=
  ((h.trees a.tree).lookup a.addr path).map (Ptr.mk a.tree)

/-- What layer `a` answers for `path`: the materialised tree of a node
that is there, is not Null, and does not materialise to null. -/
def contribution (h : Heap) (a : Ptr) (path : List String) : Option Variant :=
  (h.lookup a path).bind fun q =>
    if (h.atom q).isNull || (h.materialize q).isNull then none else some (h.materialize q)

/-- Layer `a` has no Map at `path`: no longer path reaches a node. -/
def Barren (h : Heap) (a : Ptr) (path : List String) : Prop :=
  ∀ n, h.lookup a (path ++ [n]) = none

variable {h : Heap} {a b : Ptr} {p : List String}

theorem lookup_nil (h : Heap) (a : Ptr) : h.lookup a [] = some a := rfl

theorem lookup_tree (e : h.lookup a p = some b) : b.tree = a.tree := by
  simp only [lookup, Option.map_eq_some'] at e
  obtain ⟨_, -, rfl⟩ := e
  rfl

/-- One more name below a node the path reaches. -/
theorem lookup_snoc_of_some (e : h.lookup a p = some b) (n : String) :
    h.lookup a (p ++ [n]) = (((h.trees a.tree).entries b.addr).lookup n).map (Ptr.mk a.tree) := by
  simp only [lookup, Option.map_eq_some'] at e
  obtain ⟨x, hx, rfl⟩ := e
  simp [lookup, Tree.lookup_snoc, hx]

theorem barren_of_none (e : h.lookup a p = none) : h.Barren a p := fun n => by
  simp only [lookup, Option.map_eq_none'] at e ⊢
  simp [Tree.lookup_snoc, e]

theorem Barren.snoc (hb : h.Barren a p) (n : String) : h.Barren a (p ++ [n]) :=
  barren_of_none (hb n)

/-- A node that is not a Map ends its layer's paths. -/
theorem barren_of_some (e : h.lookup a p = some b)
    (hm : (h.trees a.tree).entries b.addr = []) : h.Barren a p := fun n => by
  rw [lookup_snoc_of_some e, hm]
  rfl

theorem contribution_of_none (e : h.lookup a p = none) : h.contribution a p = none := by
  simp [contribution, e]

theorem contribution_of_barren (hb : h.Barren a p) (n : String) :
    h.contribution a (p ++ [n]) = none :=
  contribution_of_none (hb n)

end Heap

/-- The layered read: the first layer that answers, else the default. -/
def layeredValue (h : Heap) (atoms : List Ptr) (path : List String) (dflt : Variant) : Variant :=
  (atoms.findSome? fun a => h.contribution a path).getD dflt

/-- The path `value` reads: the names of the key's group part, then its
leaf. -/
def keyPath (key : String) : List String :=
  (if slashIndex key = -1 then [] else parseNames (keyGroup key)) ++ [keyName key]

-- ================================================= the simulation

/-- Atom `b` of a level stands for layer `a` at `path`: it is the
layer's node there, in a region navigation left as it was; or the layer
has no Map there and `b`, in the layer's region, carries nothing. -/
def Stands (h h' : Heap) (path : List String) (a b : Ptr) : Prop :=
  (h.lookup a path = some b ∧ h'.trees a.tree = h.trees a.tree) ∨
    (h.Barren a path ∧ b.tree = a.tree ∧ (h'.atom b).Hollow)

/-- The level `bs` (in `h'`) reached from the layers `as` (in `h`)
along `path`: layer by layer, in order, an atom that stands for the
layer, or none when the layer has no Map there. -/
inductive Follows (h h' : Heap) (path : List String) : List Ptr → List Ptr → Prop
  | nil : Follows h h' path [] []
  | keep {a b : Ptr} {as bs : List Ptr} :
      Stands h h' path a b → Follows h h' path as bs → Follows h h' path (a :: as) (b :: bs)
  | drop {a : Ptr} {as bs : List Ptr} :
      h.Barren a path → Follows h h' path as bs → Follows h h' path (a :: as) bs

section Simulation

variable {h h₁ h₂ : Heap} {p : List String} {a b : Ptr} {as bs : List Ptr}

theorem Stands.tree (hs : Stands h h₁ p a b) : b.tree = a.tree := by
  rcases hs with ⟨e, -⟩ | ⟨-, e, -⟩
  · exact Heap.lookup_tree e
  · exact e

/-- Only the layer's own region matters. -/
theorem Stands.frame (hs : Stands h h₁ p a b) (he : h₂.trees a.tree = h₁.trees a.tree) :
    Stands h h₂ p a b := by
  rcases hs with ⟨e, hr⟩ | ⟨hb, ht, hx⟩
  · exact .inl ⟨e, he.trans hr⟩
  · refine .inr ⟨hb, ht, ?_⟩
    rw [Heap.atom, ht, he]
    rwa [Heap.atom, ht] at hx

theorem Follows.sub (hf : Follows h h₁ p as bs) : (bs.map Ptr.tree).Sublist (as.map Ptr.tree) := by
  induction hf with
  | nil => exact .slnil
  | keep hs _ ih => rw [List.map_cons, List.map_cons, hs.tree]; exact ih.cons₂ _
  | drop _ _ ih => exact ih.cons _

theorem Follows.frame (hf : Follows h h₁ p as bs)
    (he : ∀ a ∈ as, h₂.trees a.tree = h₁.trees a.tree) : Follows h h₂ p as bs := by
  induction hf with
  | nil => exact .nil
  | keep hs _ ih =>
      exact .keep (hs.frame (he _ (.head _))) (ih fun a ha => he a (.tail _ ha))
  | drop hb _ ih => exact .drop hb (ih fun a ha => he a (.tail _ ha))

/-- Every level stands for its own layers at the empty path. -/
theorem Follows.refl : ∀ as : List Ptr, Follows h h [] as as
  | [] => .nil
  | a :: as => .keep (.inl ⟨Heap.lookup_nil h a, rfl⟩) (Follows.refl as)

/-- Every atom of a navigated level stands for one of the layers. -/
theorem Follows.stands_of_mem :
    ∀ {as bs : List Ptr}, Follows h h₁ p as bs → ∀ b ∈ bs, ∃ a ∈ as, Stands h h₁ p a b
  | _, _, .nil, _, hb => absurd hb (List.not_mem_nil _)
  | _, _, .keep hs hf, b, hb => by
      rcases List.mem_cons.1 hb with rfl | hb
      · exact ⟨_, .head _, hs⟩
      · obtain ⟨a, ha, h⟩ := hf.stands_of_mem b hb
        exact ⟨a, .tail _ ha, h⟩
  | _, _, .drop _ hf, b, hb => by
      obtain ⟨a, ha, h⟩ := hf.stands_of_mem b hb
      exact ⟨a, .tail _ ha, h⟩

/-- The first atom of a navigated level, when it lies in the first
layer's region, stands for the first layer: no other layer shares it. -/
theorem Follows.stands_head (hf : Follows h h₁ p (a :: as) (b :: bs))
    (hn : ((a :: as).map Ptr.tree).Nodup) (hb : b.tree = a.tree) : Stands h h₁ p a b := by
  cases hf with
  | keep hs _ => exact hs
  | drop _ hf =>
      obtain ⟨a', ha', hs⟩ := hf.stands_of_mem b (.head _)
      refine absurd (List.mem_map_of_mem Ptr.tree ha') ?_
      rw [← hs.tree, hb]
      exact (List.nodup_cons.1 hn).1

end Simulation

-- ============================================== one atom, one step

namespace Tree

variable {T : Tree} {a : Nat}

theorem convert_map_of_isMap (hm : (T.cells a).isMap) : T.convert a .map = T := by
  have : (T.cells a).type = .map := by simpa [Atom.isMap] using hm
  simp [convert, this]

theorem convert_map_of_not_isMap (hm : (T.cells a).isMap = false) :
    ((T.convert a .map).cells a).payload = .map [] := by
  have hne : (T.cells a).type ≠ .map := by simpa [Atom.isMap] using hm
  simp only [convert, hne, if_false, ensureMap]
  split <;> simp_all [Atom.type, Payload.type]

theorem isMap_convert_map : ((T.convert a .map).cells a).isMap := by
  cases hm : (T.cells a).isMap
  · simp [Atom.isMap, Atom.type, Payload.type, convert_map_of_not_isMap hm]
  · rwa [convert_map_of_isMap hm]

/-- A child call that does not assert. -/
theorem child_isSome {n : String} (h : ¬((T.cells a).readOnly && !(T.cells a).isMap) = true) :
    ∃ r, T.child a n = some r := by
  unfold child
  dsimp only
  rw [if_neg h]
  split
  · exact ⟨_, rfl⟩
  · split_ifs <;> exact ⟨_, rfl⟩

end Tree

namespace Heap

variable {h h' : Heap} {b : Ptr} {n : String} {r : Option Ptr}

/-- `ConfigAtom::child(name)` on a heap: the entry that is there, with
the region as it was; none; or a fresh Null of the same region. -/
theorem child_cases (hv : h.Valid b) (e : h.child b n = some (r, h')) :
    (∃ c, r = some ⟨b.tree, c⟩ ∧ h'.trees b.tree = h.trees b.tree ∧
        ((h.trees b.tree).entries b.addr).lookup n = some c) ∨
      (r = none ∧ ((h.trees b.tree).entries b.addr).lookup n = none) ∨
      (∃ c, r = some c ∧ c.tree = b.tree ∧ (h'.atom c).payload = .null ∧
        ((h.trees b.tree).entries b.addr).lookup n = none) := by
  simp only [Heap.child, Option.map_eq_some', Prod.mk.injEq] at e
  obtain ⟨⟨r₀, T⟩, e, rfl, rfl⟩ := e
  rcases Tree.child_cases e with ⟨c, rfl, rfl, hl⟩ | ⟨rfl, -, -, hl⟩ | ⟨rfl, -, hl, rfl⟩
  · exact .inl ⟨c, rfl, by simp, hl⟩
  · exact .inr (.inl ⟨rfl, hl⟩)
  · refine .inr (.inr ⟨_, rfl, rfl, ?_, hl⟩)
    have hc := Tree.alloc_cells_self ((h.trees b.tree).ensureMap b.addr) (Atom.create false)
    rw [Tree.ensureMap_next] at hc
    simp only [Heap.atom, Heap.update_trees_self, Tree.setPayload_cells_ne _ _ (Nat.ne_of_gt hv.2),
      hc]
    rfl

end Heap

section Steps

variable {h h₁ h₂ : Heap} {p : List String} {a b : Ptr} {r : Option Ptr}

/-- Below an atom that stands for a layer, a missing entry means the
layer has no Map one name further down. -/
theorem Stands.lookup_none {n : String} (hs : Stands h h₁ p a b)
    (hl : ((h₁.trees b.tree).entries b.addr).lookup n = none) : h.lookup a (p ++ [n]) = none := by
  rcases hs with ⟨e, hr⟩ | ⟨hb, -, -⟩
  · rw [Heap.lookup_snoc_of_some e, ← hr, ← Heap.lookup_tree e, hl]
    rfl
  · exact hb n

theorem Stands.barren_of_lookup {n : String} (hs : Stands h h₁ p a b)
    (hl : ((h₁.trees b.tree).entries b.addr).lookup n = none) : h.Barren a (p ++ [n]) :=
  Heap.barren_of_none (hs.lookup_none hl)

/-- Below an atom that stands for a layer and is not a Map, the layer
has no Map. -/
theorem Stands.barren_of_not_isMap (hs : Stands h h₁ p a b) (hm : (h₁.atom b).isMap = false) :
    h.Barren a p := by
  rcases hs with ⟨e, hr⟩ | ⟨hb, -, -⟩
  · refine Heap.barren_of_some e ?_
    rw [← hr, ← Heap.lookup_tree e]
    exact Tree.entries_of_not_isMap hm
  · exact hb

/-- The callback of `ConfigLevel::child(name)` keeps the relation one
name down. -/
theorem childCallback_stands {n : String} {ro : Bool} (hs : Stands h h₁ p a b) (hv : h₁.Valid b)
    (e : childCallback n b ro h₁ = some (r, h₂)) :
    (∀ c ∈ r, Stands h h₂ (p ++ [n]) a c) ∧ (r = none → h.Barren a (p ++ [n])) := by
  unfold childCallback at e
  split_ifs at e with hro
  · simp only [Option.some.injEq, Prod.mk.injEq] at e
    obtain ⟨rfl, rfl⟩ := e
    have hm : (h₁.atom b).isMap = false := by simp only [Bool.and_eq_true, Bool.not_eq_true'] at hro; exact hro.2
    refine ⟨fun _ hc => absurd hc (Option.not_mem_none _), fun _ => hs.barren_of_lookup ?_⟩
    rw [Tree.entries_of_not_isMap hm]
    rfl
  · rcases Heap.child_cases hv e with ⟨c, rfl, hr, hl⟩ | ⟨rfl, hl⟩ | ⟨c, rfl, hc, hn, hl⟩
    · refine ⟨fun c' hc' => ?_, fun h => nomatch h⟩
      cases Option.mem_some_iff.1 hc'
      rcases hs with ⟨e, hr₁⟩ | ⟨-, -, hx⟩
      · have ht := Heap.lookup_tree e
        refine .inl ⟨?_, by rw [← ht, hr, ht, hr₁]⟩
        rw [Heap.lookup_snoc_of_some e, ← hr₁, ← ht, hl, ht]
        rfl
      · rw [Tree.entries_of_hollow hx] at hl
        cases hl
    · exact ⟨fun _ hc => absurd hc (Option.not_mem_none _), fun _ => hs.barren_of_lookup hl⟩
    · refine ⟨fun c' hc' => ?_, fun h => nomatch h⟩
      cases Option.mem_some_iff.1 hc'
      exact .inr ⟨hs.barren_of_lookup hl, hc.trans hs.tree, .inl hn⟩

/-- The callback of `ConfigLevel::convert(Map)` keeps the relation. -/
theorem convertCallback_stands {ro : Bool} (hs : Stands h h₁ p a b)
    (e : convertCallback .map b ro h₁ = some (r, h₂)) :
    (∀ c ∈ r, Stands h h₂ p a c) ∧ (r = none → h.Barren a p) := by
  unfold convertCallback at e
  split_ifs at e with hro <;> simp only [Option.some.injEq, Prod.mk.injEq] at e <;>
    obtain ⟨rfl, rfl⟩ := e
  · have hm : (h₁.atom b).isMap = false := by
      simp only [Bool.and_eq_true, decide_eq_true_eq] at hro
      simpa [Atom.isMap] using hro.2
    exact ⟨fun _ hc => absurd hc (Option.not_mem_none _), fun _ => hs.barren_of_not_isMap hm⟩
  · refine ⟨fun c hc => ?_, fun h => nomatch h⟩
    cases Option.mem_some_iff.1 hc
    cases hm : (h₁.atom b).isMap
    · refine .inr ⟨hs.barren_of_not_isMap hm, hs.tree, .inr ?_⟩
      simpa [Heap.atom, Heap.convert] using Tree.convert_map_of_not_isMap hm
    · refine hs.frame ?_
      rw [← hs.tree]
      simpa [Heap.convert] using Tree.convert_map_of_isMap hm

end Steps

-- ============================================== one level, one step

section Levels

variable {h : Heap} {as : List Ptr}

theorem not_mem_of_nodup {a : Ptr} (hn : ((a :: as).map Ptr.tree).Nodup) :
    ∀ b ∈ as, a.tree ≠ b.tree := fun _ hb e =>
  (List.nodup_cons.1 hn).1 (e ▸ List.mem_map_of_mem Ptr.tree hb)

/-- `ConfigLevel::map` keeps the relation when its callback does, atom
by atom: each layer's atom is processed in its own region, which the
rest of the walk does not touch. -/
theorem mapAtoms_follows {cb : AtomCallback} (hcb : CallbackOK cb) {p p' : List String}
    (hbar : ∀ a, h.Barren a p → h.Barren a p')
    (hstep : ∀ {a b ro h₁ r h₂}, Stands h h₁ p a b → h₁.Valid b →
      cb b ro h₁ = some (r, h₂) → (∀ c ∈ r, Stands h h₂ p' a c) ∧ (r = none → h.Barren a p')) :
    ∀ {as bs : List Ptr} {first : Bool} {h₁ : Heap} {cs : List Ptr} {h₂ : Heap},
      Follows h h₁ p as bs → h₁.Closed → (∀ b ∈ bs, h₁.Valid b) → (as.map Ptr.tree).Nodup →
      mapAtoms cb first bs h₁ = some (cs, h₂) → Follows h h₂ p' as cs
  | [], _, _, _, _, _, .nil, _, _, _, e => by
      simp only [mapAtoms, Option.some.injEq, Prod.mk.injEq] at e
      obtain ⟨rfl, -⟩ := e
      exact .nil
  | a :: as, _, _, _, _, _, .drop hb hf, hh, hv, hn, e =>
      .drop (hbar a hb) (mapAtoms_follows hcb hbar hstep hf hh hv (List.nodup_cons.1 hn).2 e)
  | a :: as, b :: bs, first, h₁, cs, h₂, .keep hs hf, hh, hv, hn, e => by
      simp only [mapAtoms, Option.bind_eq_bind, Option.bind_eq_some, Option.pure_def,
        Option.some.injEq] at e
      obtain ⟨⟨r, h₁'⟩, e₁, ⟨cs', h₂'⟩, e₂, rfl, rfl⟩ := e
      have hb := hv b (.head _)
      obtain ⟨hl, -⟩ := hcb b _ h₁ r h₁' hh hb e₁
      have hother := not_mem_of_nodup hn
      have hf' : Follows h h₁' p as bs := hf.frame fun a' ha' =>
        hl.frame _ (by rw [hs.tree]; exact (hother a' ha').symm)
      have hvs : ∀ c ∈ bs, h₁'.Valid c := fun c hc => (hv c (.tail _ hc)).grow hl.grows
      have ih := mapAtoms_follows hcb hbar hstep hf' hl.closed hvs (List.nodup_cons.1 hn).2 e₂
      have hfr := (mapAtoms_ok hcb bs false hl.closed hvs e₂).2.2.1 a.tree fun hm =>
        (List.nodup_cons.1 hn).1 (hf.sub.subset hm)
      obtain ⟨hr, hnone⟩ := hstep hs hb e₁
      cases r with
      | none => exact .drop (hnone rfl) ih
      | some c => exact .keep ((hr c rfl).frame hfr) ih

/-- A property of a callback's answers that reads only the answer's
region holds of every atom of the new level. -/
theorem mapAtoms_forall {cb : AtomCallback} (hcb : CallbackOK cb) (P : Ptr → Heap → Prop)
    (hP : ∀ {c h h'}, h'.trees c.tree = h.trees c.tree → P c h → P c h')
    (hres : ∀ {a ro h r h'}, h.Valid a → cb a ro h = some (r, h') → ∀ c ∈ r, P c h') :
    ∀ {as : List Ptr} {first : Bool} {h : Heap} {rs : List Ptr} {h' : Heap}, h.Closed →
      (∀ a ∈ as, h.Valid a) → (as.map Ptr.tree).Nodup → mapAtoms cb first as h = some (rs, h') →
      ∀ c ∈ rs, P c h'
  | [], _, _, _, _, _, _, _, e => by
      simp only [mapAtoms, Option.some.injEq, Prod.mk.injEq] at e
      obtain ⟨rfl, -⟩ := e
      exact fun _ hc => absurd hc (List.not_mem_nil _)
  | a :: as, first, h, rs, h', hh, hv, hn, e => by
      simp only [mapAtoms, Option.bind_eq_bind, Option.bind_eq_some, Option.pure_def,
        Option.some.injEq] at e
      obtain ⟨⟨r, h₁⟩, e₁, ⟨rs', h₂⟩, e₂, rfl, rfl⟩ := e
      obtain ⟨hl, hr⟩ := hcb a _ h r h₁ hh (hv a (.head _)) e₁
      have hvs : ∀ b ∈ as, h₁.Valid b := fun b hb => (hv b (.tail _ hb)).grow hl.grows
      have hfr := (mapAtoms_ok hcb as false hl.closed hvs e₂).2.2.1
      intro c hc
      rcases List.mem_append.1 hc with hc | hc
      · replace hc : c ∈ r := by simpa using hc
        refine hP ?_ (hres (hv a (.head _)) e₁ c hc)
        rw [(hr c hc).1]
        exact hfr a.tree (List.nodup_cons.1 hn).1
      · exact mapAtoms_forall hcb P hP hres hl.closed hvs (List.nodup_cons.1 hn).2 e₂ c hc

/-- A callback that answers every atom it is shown at least as
read-only as the atom is. -/
def CallbackTotal (cb : AtomCallback) : Prop :=
  ∀ a (ro : Bool) h, ((h.atom a).readOnly = true → ro = true) → ∃ r, cb a ro h = some r

theorem mapAtoms_total {cb : AtomCallback} (hcb : CallbackTotal cb) :
    ∀ (as : List Ptr) (first : Bool) (h : Heap), ∃ r, mapAtoms cb first as h = some r
  | [], _, h => ⟨_, rfl⟩
  | a :: as, first, h => by
      obtain ⟨⟨r, h₁⟩, e₁⟩ := hcb a ((h.atom a).readOnly || !first) h (by simp_all)
      obtain ⟨⟨rs, h₂⟩, e₂⟩ := mapAtoms_total hcb as false h₁
      exact ⟨(r.toList ++ rs, h₂), by simp [mapAtoms, e₁, e₂]⟩

/-- `ConfigAtom::child(name)` never asserts under `ConfigLevel::map`. -/
theorem childCallback_total (n : String) : CallbackTotal (childCallback n) := by
  intro a ro h hro
  unfold childCallback
  split_ifs with hc
  · exact ⟨_, rfl⟩
  · have : ¬(((h.trees a.tree).cells a.addr).readOnly &&
        !((h.trees a.tree).cells a.addr).isMap) = true := fun hx => hc (by
      simp only [Bool.and_eq_true, Bool.not_eq_true'] at hx ⊢
      exact ⟨hro hx.1, hx.2⟩)
    obtain ⟨r, e⟩ := Tree.child_isSome (n := n) this
    exact ⟨(r.1.map (Ptr.mk a.tree), h.update a.tree r.2), by simp [Heap.child, e]⟩

theorem convertCallback_total (type : AtomType) : CallbackTotal (convertCallback type) := by
  intro a ro h _
  unfold convertCallback
  split_ifs <;> exact ⟨_, rfl⟩

/-- `ConfigLevel::child(name)`: one name down. -/
theorem child_follows {n : String} {p : List String} {l l' : ConfigLevel} {h₁ h₂ : Heap}
    (hf : Follows h h₁ p as l.atoms) (hl : l.OK h₁) (hh : h₁.Closed)
    (hn : (as.map Ptr.tree).Nodup) (e : l.child n h₁ = some (l', h₂)) :
    Follows h h₂ (p ++ [n]) as l'.atoms := by
  simp only [ConfigLevel.child, ConfigLevel.map, Option.map_eq_some', Prod.mk.injEq] at e
  obtain ⟨⟨cs, h₂'⟩, e, rfl, rfl⟩ := e
  exact mapAtoms_follows (childCallback_ok n) (fun _ hb => hb.snoc n)
    (fun hs hv e => childCallback_stands hs hv e) hf hh hl.valid hn e

/-- `ConfigLevel::child(names)`: the whole path down. -/
theorem childPath_follows : ∀ (names : List String) {p : List String} {l l' : ConfigLevel}
    {h₁ h₂ : Heap}, Follows h h₁ p as l.atoms → l.OK h₁ → h₁.Closed → (as.map Ptr.tree).Nodup →
    l.childPath names h₁ = some (l', h₂) → Follows h h₂ (p ++ names) as l'.atoms
  | [], p, l, l', h₁, h₂, hf, _, _, _, e => by
      simp only [ConfigLevel.childPath, Option.some.injEq, Prod.mk.injEq] at e
      obtain ⟨rfl, rfl⟩ := e
      simpa using hf
  | n :: ns, p, l, l', h₁, h₂, hf, hl, hh, hn, e => by
      simp only [ConfigLevel.childPath, Option.bind_eq_bind, Option.bind_eq_some] at e
      obtain ⟨⟨l₁, h₁'⟩, e₁, e₂⟩ := e
      have s₁ := ConfigLevel.map_step (childCallback_ok n) hl hh e₁
      simpa using childPath_follows ns (child_follows hf hl hh hn e₁) s₁.ok s₁.closed hn e₂

theorem childPath_total : ∀ (names : List String) (l : ConfigLevel) (h : Heap),
    ∃ r, l.childPath names h = some r
  | [], l, h => ⟨(l, h), rfl⟩
  | n :: ns, l, h => by
      obtain ⟨⟨cs, h₁⟩, e₁⟩ := mapAtoms_total (childCallback_total n) l.atoms true h
      obtain ⟨r, e₂⟩ := childPath_total ns ⟨cs, false⟩ h₁
      exact ⟨r, by simp [ConfigLevel.childPath, ConfigLevel.child, ConfigLevel.map, e₁, e₂]⟩

/-- `ConfigLevel::convert(Map)`: the same layers, every atom a Map. -/
theorem convert_follows {p : List String} {l l' : ConfigLevel} {h₁ h₂ : Heap}
    (hf : Follows h h₁ p as l.atoms) (hl : l.OK h₁) (hh : h₁.Closed)
    (hn : (as.map Ptr.tree).Nodup) (e : l.convert .map h₁ = some (l', h₂)) :
    Follows h h₂ p as l'.atoms ∧ ∀ c ∈ l'.atoms, (h₂.atom c).isMap := by
  simp only [ConfigLevel.convert, ConfigLevel.map, Option.map_eq_some', Prod.mk.injEq] at e
  obtain ⟨⟨cs, h₂'⟩, e, rfl, rfl⟩ := e
  refine ⟨mapAtoms_follows (convertCallback_ok .map) (fun _ hb => hb)
    (fun hs _ e => convertCallback_stands hs e) hf hh hl.valid hn e,
    mapAtoms_forall (convertCallback_ok .map) (fun c h => (h.atom c).isMap) ?_ ?_ hh hl.valid
      hl.separate e⟩
  · intro c h h' he hc
    rwa [Heap.atom, he]
  · intro a ro h r h' _ e c hc
    unfold convertCallback at e
    split_ifs at e <;> simp only [Option.some.injEq, Prod.mk.injEq] at e <;>
      obtain ⟨rfl, rfl⟩ := e
    · cases hc
    · cases Option.mem_some_iff.1 hc
      simpa [Heap.atom, Heap.convert] using Tree.isMap_convert_map

theorem parseNames_empty : parseNames "" = [] := rfl

/-- `Config::beginGroup` on a name that names a path: it succeeds, and
the pushed level stands for the current layers along that path, all
Maps. -/
theorem beginGroup_follows {name : String} {d : ConfigPrivate} (hd : d.OK h) (hh : h.Closed)
    (hnames : parseNames name ≠ []) :
    ∃ l h', beginGroup name d h = some (d.push l, h') ∧ h'.Closed ∧ l.OK h' ∧
      Follows h h' (parseNames name) d.current.atoms l.atoms ∧ ∀ c ∈ l.atoms, (h'.atom c).isMap := by
  have hname : name ≠ "" := fun e => hnames (e ▸ parseNames_empty)
  obtain ⟨⟨l₁, h₁⟩, e₁⟩ := childPath_total (parseNames name) d.current h
  have hc₁ : d.current.childNames (parseNames name) h = some (l₁, h₁) := by
    simpa [ConfigLevel.childNames, hnames] using e₁
  have s₁ := childNames_step hd.current hh hc₁
  obtain ⟨⟨l₂, h₂⟩, e₂⟩ : ∃ r, l₁.convert .map h₁ = some r := by
    obtain ⟨r, e⟩ := mapAtoms_total (convertCallback_total .map) l₁.atoms true h₁
    exact ⟨(⟨r.1, false⟩, r.2), by simp [ConfigLevel.convert, ConfigLevel.map, e]⟩
  have s₂ := ConfigLevel.map_step (convertCallback_ok .map) s₁.ok s₁.closed e₂
  have hf₁ := childPath_follows (parseNames name) (Follows.refl _) hd.current hh hd.current.separate e₁
  obtain ⟨hf₂, hm⟩ := convert_follows hf₁ s₁.ok s₁.closed hd.current.separate e₂
  refine ⟨l₂, h₂, ?_, s₂.closed, s₂.ok, hf₂, hm⟩
  simp [beginGroup, hname, hnames, hc₁, e₂]

end Levels

-- ================================================== the value loop

section Read

variable {h h₁ : Heap} {p : List String} {a b : Ptr}

theorem Heap.atom_congr {h h' : Heap} {q : Ptr} (e : h'.trees q.tree = h.trees q.tree) :
    h'.atom q = h.atom q := by
  simp [Heap.atom, e]

theorem Heap.materialize_congr {h h' : Heap} {q : Ptr} (e : h'.trees q.tree = h.trees q.tree) :
    h'.materialize q = h.materialize q := by
  simp [Heap.materialize, e]

/-- The answer of layer `a`, as the value loop's pass over the atom
that stands for it gives it: the child it reads is the layer's node at
the path, or carries nothing. -/
theorem leaf_stands (leaf : String) {var : Variant} (hs : Stands h h₁ p a b) (hh : h₁.Closed)
    (hv : h₁.Valid b) (hm : (h₁.atom b).isMap) (hvar : var.isNull) :
    ∃ r h₂, h₁.child b leaf = some (r, h₂) ∧ h₁.Local h₂ b.tree ∧
      h.contribution a (p ++ [leaf]) =
        if (pickValue r h₂ var).isNull then none else some (pickValue r h₂ var) := by
  obtain ⟨⟨r₀, T⟩, e₀⟩ := Tree.child_isSome (n := leaf)
    (T := h₁.trees b.tree) (a := b.addr) (by simp_all [Heap.atom])
  have e : h₁.child b leaf = some (r₀.map (Ptr.mk b.tree), h₁.update b.tree T) := by
    simp [Heap.child, e₀]
  refine ⟨_, _, e, (Heap.child_local hh hv e).1, ?_⟩
  rcases Heap.child_cases hv e with ⟨c, hr, hreg, hl⟩ | ⟨hr, hl⟩ | ⟨c, hr, -, hn, hl⟩
  · rw [hr]
    rcases hs with ⟨e', hr₁⟩ | ⟨-, -, hx⟩
    · have ht := Heap.lookup_tree e'
      have hq : h.lookup a (p ++ [leaf]) = some ⟨b.tree, c⟩ := by
        rw [Heap.lookup_snoc_of_some e', ← hr₁, ← ht, hl, ht]
        rfl
      have hreg' : (h₁.update b.tree T).trees (Ptr.mk b.tree c).tree =
          h.trees (Ptr.mk b.tree c).tree := by
        rw [hreg, ht, hr₁]
      simp only [Heap.contribution, hq, Option.some_bind, pickValue,
        Heap.atom_congr hreg', Heap.materialize_congr hreg']
      cases hnull : (h.atom ⟨b.tree, c⟩).isNull <;> simp [hvar]
    · rw [Tree.entries_of_hollow hx] at hl
      cases hl
  · rw [hr, Heap.contribution_of_none (hs.lookup_none hl)]
    simp [pickValue, hvar]
  · rw [hr, Heap.contribution_of_none (hs.lookup_none hl)]
    simp [pickValue, Atom.isNull, Atom.type, Payload.type, hn, hvar]

/-- The loop of `Config::value` over a level that stands for the layers
`as` at `p` reads `layeredValue` at `p ++ [leaf]`, and never asserts. -/
theorem valueLoop_follows (leaf : String) :
    ∀ {as bs : List Ptr} {var : Variant} {h₁ : Heap}, Follows h h₁ p as bs → h₁.Closed →
      (∀ b ∈ bs, h₁.Valid b ∧ (h₁.atom b).isMap) → (as.map Ptr.tree).Nodup → var.isNull →
      ∃ r h₂, valueLoop leaf bs var h₁ = some (r, h₂) ∧
        ∀ dflt, (if r.isNull then dflt else r) = layeredValue h as (p ++ [leaf]) dflt
  | [], _, var, h₁, .nil, _, _, _, hvar =>
      ⟨var, h₁, rfl, fun dflt => by simp [hvar, layeredValue]⟩
  | a :: as, _, var, h₁, .drop hb hf, hh, hv, hn, hvar => by
      obtain ⟨r, h₂, e, hr⟩ := valueLoop_follows leaf hf hh hv (List.nodup_cons.1 hn).2 hvar
      refine ⟨r, h₂, e, fun dflt => ?_⟩
      simp [hr, layeredValue, Heap.contribution_of_barren hb]
  | a :: as, b :: bs, var, h₁, .keep hs hf, hh, hv, hn, hvar => by
      obtain ⟨hvb, hmb⟩ := hv b (.head _)
      obtain ⟨r, h₂, e₁, hl, hc⟩ := leaf_stands leaf hs hh hvb hmb hvar
      have hstep : valueLoop leaf (b :: bs) var h₁ =
          if (pickValue r h₂ var).isNull then valueLoop leaf bs (pickValue r h₂ var) h₂
          else some (pickValue r h₂ var, h₂) := by
        simp [valueLoop, hmb, e₁]
      by_cases hnull : (pickValue r h₂ var).isNull
      · have hother : ∀ c ∈ bs, h₂.trees c.tree = h₁.trees c.tree := fun c hc =>
          hl.frame _ fun e => (List.nodup_cons.1 hn).1 (by
            rw [← hs.tree, ← e]; exact hf.sub.subset (List.mem_map_of_mem Ptr.tree hc))
        have hf' := hf.frame fun a' ha' =>
          hl.frame _ (by rw [hs.tree]; exact (not_mem_of_nodup hn a' ha').symm)
        have hv' : ∀ c ∈ bs, h₂.Valid c ∧ (h₂.atom c).isMap := fun c hc =>
          ⟨(hv c (.tail _ hc)).1.grow hl.grows, by
            rw [Heap.atom_congr (hother c hc)]; exact (hv c (.tail _ hc)).2⟩
        obtain ⟨r', h₃, e, hr⟩ :=
          valueLoop_follows leaf hf' hl.closed hv' (List.nodup_cons.1 hn).2 hnull
        refine ⟨r', h₃, by rw [hstep, if_pos hnull, e], fun dflt => ?_⟩
        simp [hr, layeredValue, hc, hnull]
      · refine ⟨_, h₂, by rw [hstep, if_neg hnull], fun dflt => ?_⟩
        simp [layeredValue, hc, hnull]

/-- `enterKey`/`leaveKey` around the loop: on a key whose group part
names a path, the group level stands for the current layers along it,
all Maps, and leaving it restores the cursor. -/
theorem enterKey_follows {key : String} {d : ConfigPrivate} (hd : d.OK h) (hh : h.Closed)
    (hmap : slashIndex key = -1 → ∀ a ∈ d.current.atoms, (h.atom a).isMap)
    (hkey : slashIndex key = -1 ∨ parseNames (keyGroup key) ≠ []) :
    ∃ d' h', enterKey key d h = some (d', h') ∧ leaveKey key d' = some d ∧ h'.Closed ∧
      Follows h h' (if slashIndex key = -1 then [] else parseNames (keyGroup key))
        d.current.atoms d'.current.atoms ∧
      ∀ b ∈ d'.current.atoms, h'.Valid b ∧ (h'.atom b).isMap := by
  by_cases hs : slashIndex key = -1
  · refine ⟨d, h, by simp [enterKey, hs], by simp [leaveKey, hs], hh, ?_, fun b hb =>
      ⟨hd.current.valid b hb, hmap hs b hb⟩⟩
    simpa [hs] using Follows.refl d.current.atoms
  · obtain ⟨l, h', e, hc, hl, hf, hm⟩ :=
      beginGroup_follows hd hh (hkey.resolve_left hs)
    exact ⟨d.push l, h', by simp [enterKey, hs, e], by simp [leaveKey, hs, endGroup], hc,
      by simpa [hs] using hf, fun b hb => ⟨hl.valid b hb, hm b hb⟩⟩

end Read

/-- `Config::value` without `Crypted` reads the layered view. In every
reachable world, on a cursor whose current atoms are Maps, for a key
with no `/` or whose group part names a path, it answers the first
layer's non-null node at the key's path, or the default, and leaves the
cursor where it was. -/
theorem value_layered {env : Env} {cs : CryptoService} {w : World} {c : Nat} {d : ConfigPrivate}
    {key : String} (hr : Reachable env cs w) (hd : w.config c = some d)
    (hmap : ∀ a ∈ d.current.atoms, (w.store.heap.atom a).isMap)
    (hkey : slashIndex key = -1 ∨ parseNames (keyGroup key) ≠ []) (dflt : Variant) :
    ∃ h', value cs key dflt ⟨false⟩ d w.store.heap =
      some (layeredValue w.store.heap d.current.atoms (keyPath key) dflt, d, h') := by
  have hw := hr.heapInv
  have hok := hw.configs c d hd
  by_cases he : d.current.atoms = []
  · exact ⟨w.store.heap, by simp [value, he, layeredValue]⟩
  obtain ⟨d', h', e₁, e₃, hc, hf, hv⟩ := enterKey_follows hok hw.closed (fun _ => hmap) hkey
  obtain ⟨r, h₂, e₂, hr⟩ :=
    valueLoop_follows (keyName key) hf hc hv hok.current.separate
      (rfl : Variant.invalid.isNull = true)
  refine ⟨h₂, ?_⟩
  rw [keyPath, ← hr dflt]
  simp [value, he, e₁, e₂, e₃]

/-- A cursor over a file that does not exist and two fallback layers, an
empty Map over one holding `a`. -/
def fallbackWorld : World :=
  let r := construct Env.sample ["a"] [.map [], .map [("a", .scalar (.int 2))]] none
    (World.init .empty)
  r.2.addConfig r.1

/-- The read falls through the file's empty layer and the upper fallback. -/
theorem value_layered_fallbacks :
    ∃ d, fallbackWorld.config 0 = some d ∧
      layeredValue fallbackWorld.store.heap d.current.atoms (keyPath "a") .invalid =
        .scalar (.int 2) ∧
      ∃ h', value ⟨id, id⟩ "a" .invalid ⟨false⟩ d fallbackWorld.store.heap =
        some (layeredValue fallbackWorld.store.heap d.current.atoms (keyPath "a") .invalid, d, h') :=
  ⟨_, rfl, by decide,
    value_layered (Reachable.step (.construct ["a"] [.map [], .map [("a", .scalar (.int 2))]] none)
      (.init .empty) rfl : Reachable Env.sample ⟨id, id⟩ fallbackWorld)
      (rfl : fallbackWorld.config 0 = _) (by decide)
      (.inl (by decide)) .invalid⟩

end QutimConfig
