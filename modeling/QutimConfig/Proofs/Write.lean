/-
`Config::setValue` (config.cpp:1062-1086) and the reads after it.

# Reads

`Config::value` answers what the layers contribute at the key's path
(`value_readKey`): on a key with a group part, the first layer whose
node there is not null; on a key without one the same, where every
layer up to the one that answers must be a Map (`readLayers`).

# Writes

A write navigates every layer along the key's group path, stores the
value's tree under the key's last name in the first layer's node unless
`QVariant::operator==` finds the tree there equal to it, and leaves.
Each layer's region changes along the key's path only: the first layer,
writable, gets its path created and retagged to Maps (`Spine`); a lower
layer may get a fresh Null under a missing name (`Tracks`). So a read of
a key whose path parts from the written one answers as before, and the
written key reads back what `replace` left: the value, or the old tree
Qt found equal to it (`Variant.kept`, `setValue_reads_back`). A stored
`true` thus survives a write of `"no"` (`setValue_keeps_true_over_no`).
-/
import QutimConfig.Proofs.Path
import QutimConfig.Proofs.Steps

namespace QutimConfig

-- ============================================= reads, from the heap

theorem Atom.payload_of_isNull {x : Atom} (h : x.isNull) : x.payload = .null := by
  obtain ⟨p, r⟩ := x
  cases p <;> simp_all [Atom.isNull, Atom.type, Payload.type]

theorem Tree.toVariant_null {T : Tree} {x : Nat} (hx : (T.cells x).payload = .null) :
    ∀ n, T.toVariant n x = .invalid
  | 0 => rfl
  | n + 1 => by simp [Tree.toVariant, hx]

namespace Heap

variable {h h' : Heap} {a q : Ptr} {p : List String}

theorem lookup_congr (e : h'.trees a.tree = h.trees a.tree) (p : List String) :
    h'.lookup a p = h.lookup a p := by
  simp only [lookup, e]

theorem contribution_congr (e : h'.trees a.tree = h.trees a.tree) (p : List String) :
    h'.contribution a p = h.contribution a p := by
  unfold contribution lookup
  rw [e]
  cases (h.trees a.tree).lookup a.addr p with
  | none => rfl
  | some x => simp only [Option.map_some', Option.some_bind, atom, materialize, e]

end Heap

/-- The loop of `Config::value` on a key without a group part, from the
heap: each atom must be a Map; the first layer that answers, if any. -/
def readLayers (h : Heap) (path : List String) : List Ptr → Option (Option Variant)
  | [] => some none
  | a :: as =>
      if (h.atom a).isMap then
        match h.contribution a path with
        | some v => some (some v)
        | none => readLayers h path as
      else none

/-- What `Config::value` answers before the default, from the heap and
the current atoms: `none` where the code asserts. -/
def readKey (h : Heap) (atoms : List Ptr) (key : String) : Option (Option Variant) :=
  if atoms = [] then some none
  else if slashIndex key = -1 then readLayers h (keyPath key) atoms
  else if parseNames (keyGroup key) = [] then none
  else some (atoms.findSome? fun a => h.contribution a (keyPath key))

section Reads

variable {h h' : Heap} {p : List String}

/-- `beginGroup` asserts on a name with no path in it. -/
theorem beginGroup_of_names_nil {name : String} {d : ConfigPrivate} (hn : parseNames name = []) :
    beginGroup name d h = none := by
  simp only [beginGroup, hn, ne_eq, not_true_eq_false]
  cases (guard (¬name = "") : Option Unit) <;> rfl

theorem readLayers_congr : ∀ {as : List Ptr}, (∀ a ∈ as, (h'.atom a).isMap = (h.atom a).isMap) →
    (∀ a ∈ as, h'.contribution a p = h.contribution a p) → readLayers h' p as = readLayers h p as
  | [], _, _ => rfl
  | a :: as, hm, hc => by
      simp only [readLayers, hm a (.head _), hc a (.head _),
        readLayers_congr (fun b hb => hm b (.tail _ hb)) fun b hb => hc b (.tail _ hb)]

theorem findSome_congr {f g : Ptr → Option Variant} :
    ∀ {as : List Ptr}, (∀ a ∈ as, f a = g a) → as.findSome? f = as.findSome? g
  | [], _ => rfl
  | a :: as, h => by
      simp only [List.findSome?_cons, h a (.head _), findSome_congr fun b hb => h b (.tail _ hb)]

/-- The loop of `Config::value` over the current atoms computes
`readLayers`. -/
theorem valueLoop_readLayers (leaf : String) :
    ∀ {as : List Ptr} {var : Variant} {h : Heap}, h.Closed → (∀ a ∈ as, h.Valid a) →
      (as.map Ptr.tree).Nodup → var.isNull →
      (valueLoop leaf as var h).map (fun r => if r.1.isNull then none else some r.1) =
        readLayers h [leaf] as
  | [], var, h, _, _, _, hvar => by simp [valueLoop, readLayers, hvar]
  | a :: as, var, h, hh, hv, hn, hvar => by
      by_cases hm : (h.atom a).isMap
      · obtain ⟨r, h₂, e, hl, hc⟩ :=
          leaf_stands leaf (p := []) (.inl ⟨Heap.lookup_nil h a, rfl⟩) hh (hv a (.head _)) hm hvar
        have hrest : readLayers h₂ [leaf] as = readLayers h [leaf] as := by
          have he : ∀ b ∈ as, h₂.trees b.tree = h.trees b.tree := fun b hb =>
            hl.frame _ (Ne.symm (not_mem_of_nodup hn b hb))
          exact readLayers_congr (fun b hb => by rw [Heap.atom_congr (he b hb)])
            fun b hb => Heap.contribution_congr (he b hb) _
        simp only [List.nil_append] at hc
        by_cases hnull : (pickValue r h₂ var).isNull
        · have ih := valueLoop_readLayers leaf hl.closed
            (fun b hb => (hv b (.tail _ hb)).grow hl.grows) (List.nodup_cons.1 hn).2 hnull
          simp [valueLoop, readLayers, hm, e, hc, hnull, ih, hrest]
        · simp [valueLoop, readLayers, hm, e, hc, hnull]
      · simp [valueLoop, readLayers, hm]

/-- `Config::value` without `Crypted`, on a cursor of a closed heap,
answers `readKey` or the default. -/
theorem value_readKey {cs : CryptoService} {key : String} {d : ConfigPrivate} (hh : h.Closed)
    (hd : d.OK h) (dflt : Variant) :
    (value cs key dflt ⟨false⟩ d h).map (·.1) = (readKey h d.current.atoms key).map (·.getD dflt) := by
  by_cases he : d.current.atoms = []
  · simp [value, readKey, he]
  by_cases hs : slashIndex key = -1
  · have hl := valueLoop_readLayers (keyName key) hh hd.current.valid hd.current.separate
      (rfl : Variant.invalid.isNull = true)
    have hp : keyPath key = [keyName key] := by simp [keyPath, hs]
    rw [readKey, if_neg he, if_pos hs, hp, ← hl]
    cases e : valueLoop (keyName key) d.current.atoms .invalid h with
    | none => simp [value, he, enterKey, hs, e]
    | some r =>
        by_cases hr : r.1.isNull <;> simp [value, he, enterKey, leaveKey, hs, e, hr]
  by_cases hn : parseNames (keyGroup key) = []
  · simp [value, readKey, he, hs, hn, enterKey, beginGroup_of_names_nil hn]
  obtain ⟨l, h', e₁, hc, hl, hf, hm⟩ := beginGroup_follows hd hh hn
  obtain ⟨r, h₂, e₂, hr⟩ := valueLoop_follows (keyName key) hf hc
    (fun b hb => ⟨hl.valid b hb, hm b hb⟩) hd.current.separate (rfl : Variant.invalid.isNull = true)
  have e₃ : leaveKey key (d.push l) = some d := by simp [leaveKey, hs, endGroup]
  have hp : keyPath key = parseNames (keyGroup key) ++ [keyName key] := by simp [keyPath, hs]
  simp only [readKey, if_neg he, if_neg hs, if_neg hn, Option.map_some', hp]
  rw [← layeredValue, ← hr dflt]
  simp [value, he, enterKey, hs, e₁, e₂, e₃]

end Reads

-- ====================================== writes, layer by layer

namespace Heap

variable {h₀ h h' : Heap} {P s : List String} {a b : Ptr}

/-- Layer `a`'s region in `h` is its region in `h₀` changed along `P`
only. -/
def ChangedAlong (h₀ h : Heap) (P : List String) (a : Ptr) : Prop :=
  (h₀.trees a.tree).ChangedAlong (h.trees a.tree) a.addr P

theorem ChangedAlong.frame (hc : h₀.ChangedAlong h P a) (e : h'.trees a.tree = h.trees a.tree) :
    h₀.ChangedAlong h' P a := by
  unfold ChangedAlong at *
  rwa [e]

theorem ChangedAlong.lt (hc : h₀.ChangedAlong h P a) (ha : h₀.Valid a) :
    a.addr < (h.trees a.tree).next :=
  lt_of_lt_of_le ha.2 hc.next

/-- A layer changed along `P` only answers as before on a path that
parts from `P`. -/
theorem ChangedAlong.contribution (hc : h₀.ChangedAlong h P a) (hh : h₀.Closed) (ha : h₀.Valid a)
    {q : List String} (hq : Tree.Apart q P) : h.contribution a q = h₀.contribution a q := by
  unfold Heap.contribution Heap.lookup
  rw [hc.lookup q hq]
  cases hx : (h₀.trees a.tree).lookup a.addr q with
  | none => rfl
  | some x =>
      simp only [Option.map_some', Option.some_bind, atom, materialize]
      rw [hc.below q x hq hx x .refl, hc.materialize (hh _) ha.2 hq hx]

theorem lookup_some (e : h.lookup a s = some b) :
    ∃ x, (h.trees a.tree).lookup a.addr s = some x ∧ b = ⟨a.tree, x⟩ := by
  simp only [lookup, Option.map_eq_some'] at e
  obtain ⟨x, hx, rfl⟩ := e
  exact ⟨x, hx, rfl⟩

/-- `ConfigAtom::child(name)` on layer `a`'s node at `s`, one name along
`P`: an answered child is the layer's node at `s ++ [name]`, with the
node's flag. -/
theorem ChangedAlong.child {n : String} {r : Option Ptr} (hc : h₀.ChangedAlong h P a)
    (hl : h.lookup a s = some b) (ha : h₀.Valid a) (hh : h.Closed) (hP : s ++ [n] <+: P)
    (hroot : s = [] → (h.atom b).isMap) (e : h.child b n = some (r, h')) :
    h₀.ChangedAlong h' P a ∧ ((h.atom b).readOnly = false → r.isSome) ∧
      ∀ c ∈ r, h'.lookup a (s ++ [n]) = some c ∧ (h'.atom c).readOnly = (h.atom b).readOnly := by
  obtain ⟨x, hx, rfl⟩ := lookup_some hl
  simp only [Heap.child, Option.map_eq_some', Prod.mk.injEq] at e
  obtain ⟨⟨r₀, T⟩, e, rfl, rfl⟩ := e
  obtain ⟨hT, hr⟩ := Tree.ChangedAlong.child (hh _) (hc.lt ha) hx hP hroot e
  refine ⟨hc.trans (by simpa [ChangedAlong] using hT),
    fun hro => by simpa using Tree.child_some_of_writable hro e, fun c hc' => ?_⟩
  simp only [Option.mem_def, Option.map_eq_some'] at hc'
  obtain ⟨y, hy, rfl⟩ := hc'
  obtain ⟨hy₁, hy₂⟩ := hr y hy
  simp [lookup, atom, hy₁, hy₂]

/-- `ConfigAtom::convert(Map)` on layer `a`'s node at `s`, a prefix of
`P`: the node stays the layer's node at `s`, a Map with its flag. -/
theorem ChangedAlong.convert (hc : h₀.ChangedAlong h P a) (hl : h.lookup a s = some b)
    (ha : h₀.Valid a) (hh : h.Closed) (hs : s <+: P) (hroot : s = [] → (h.atom b).isMap) :
    h₀.ChangedAlong (h.convert b .map) P a ∧ (h.convert b .map).lookup a s = some b ∧
      ((h.convert b .map).atom b).readOnly = (h.atom b).readOnly ∧ ((h.convert b .map).atom b).isMap := by
  obtain ⟨x, hx, rfl⟩ := lookup_some hl
  obtain ⟨hT, hl'⟩ := Tree.ChangedAlong.convert (hh _) (hc.lt ha) hx hs hroot
  refine ⟨hc.trans (by simpa [ChangedAlong, Heap.convert] using hT), ?_, ?_, ?_⟩
  · simp [lookup, Heap.convert, hl']
  · simp [atom, Heap.convert]
  · simpa [atom, Heap.convert] using Tree.isMap_convert_map

end Heap

open Heap

section Navigation

variable {h₀ : Heap} {P : List String} {a : Ptr} {as : List Ptr}

/-- The written layer after navigation along `s`: its region changed
along `P` only, and its atom is its writable node at `s`. -/
structure Spine (h₀ h : Heap) (P s : List String) (a b : Ptr) : Prop where
  changed : h₀.ChangedAlong h P a
  lookup : h.lookup a s = some b
  writable : (h.atom b).readOnly = false

/-- Navigation along `s` took the lower layers `as` of `h₀` to the atoms
`bs` of `h`: every layer's region changed along `P` only, and a layer
still in the level has its node at `s` as its atom. -/
inductive Tracks (h₀ h : Heap) (P s : List String) : List Ptr → List Ptr → Prop
  | nil : Tracks h₀ h P s [] []
  | keep {a b : Ptr} {as bs : List Ptr} : h₀.ChangedAlong h P a → h.lookup a s = some b →
      Tracks h₀ h P s as bs → Tracks h₀ h P s (a :: as) (b :: bs)
  | drop {a : Ptr} {as bs : List Ptr} : h₀.ChangedAlong h P a → Tracks h₀ h P s as bs →
      Tracks h₀ h P s (a :: as) bs

variable {h h' : Heap} {s : List String} {b : Ptr} {bs : List Ptr}

theorem Spine.frame (hsp : Spine h₀ h P s a b) (e : h'.trees a.tree = h.trees a.tree) :
    Spine h₀ h' P s a b := by
  obtain ⟨x, -, rfl⟩ := lookup_some hsp.lookup
  exact ⟨hsp.changed.frame e, by rw [lookup_congr e]; exact hsp.lookup,
    by rw [atom_congr (q := ⟨a.tree, x⟩) e]; exact hsp.writable⟩

theorem Tracks.refl : ∀ as : List Ptr, Tracks h h P [] as as
  | [] => .nil
  | a :: as => .keep (Tree.ChangedAlong.refl _ _ _) (lookup_nil h a) (Tracks.refl as)

theorem Tracks.changed (hf : Tracks h₀ h P s as bs) : ∀ x ∈ as, h₀.ChangedAlong h P x := by
  induction hf with
  | nil => exact fun _ hx => absurd hx (List.not_mem_nil _)
  | keep hc _ _ ih | drop hc _ ih => exact fun x hx => (List.mem_cons.1 hx).elim (· ▸ hc) (ih x)

theorem Tracks.sub (hf : Tracks h₀ h P s as bs) : (bs.map Ptr.tree).Sublist (as.map Ptr.tree) := by
  induction hf with
  | nil => exact .slnil
  | keep _ hl _ ih => rw [List.map_cons, List.map_cons, lookup_tree hl]; exact ih.cons₂ _
  | drop _ _ ih => exact ih.cons _

theorem Tracks.frame (hf : Tracks h₀ h P s as bs) (he : ∀ x ∈ as, h'.trees x.tree = h.trees x.tree) :
    Tracks h₀ h' P s as bs := by
  induction hf with
  | nil => exact .nil
  | keep hc hl _ ih =>
      exact .keep (hc.frame (he _ (.head _))) (by rw [lookup_congr (he _ (.head _))]; exact hl)
        (ih fun x hx => he x (.tail _ hx))
  | drop hc _ ih => exact .drop (hc.frame (he _ (.head _))) (ih fun x hx => he x (.tail _ hx))

/-- A callback that, shown a lower layer's node at `s`, keeps the layer
changed along `P` only and answers its node at `s'`. -/
def TracksStep (h₀ : Heap) (P s s' : List String) (cb : AtomCallback) : Prop :=
  ∀ {a b : Ptr} {h₁ : Heap} {r : Option Ptr} {h₂ : Heap}, h₀.ChangedAlong h₁ P a →
    h₁.lookup a s = some b → h₀.Valid a → h₁.Closed → cb b true h₁ = some (r, h₂) →
    h₀.ChangedAlong h₂ P a ∧ ∀ c ∈ r, h₂.lookup a s' = some c

/-- `ConfigLevel::map` past the first atom: every callback sees its atom
read-only, and keeps `Tracks` when it does per layer. -/
theorem mapAtoms_tracks {cb : AtomCallback} (hcb : CallbackOK cb) {s' : List String}
    (hstep : TracksStep h₀ P s s' cb) :
    ∀ {as bs : List Ptr} {h₁ : Heap} {cs : List Ptr} {h₂ : Heap}, Tracks h₀ h₁ P s as bs →
      (∀ x ∈ as, h₀.Valid x) → h₁.Closed → (∀ y ∈ bs, h₁.Valid y) → (as.map Ptr.tree).Nodup →
      mapAtoms cb false bs h₁ = some (cs, h₂) → Tracks h₀ h₂ P s' as cs
  | [], _, _, _, _, .nil, _, _, _, _, e => by
      simp only [mapAtoms, Option.some.injEq, Prod.mk.injEq] at e
      obtain ⟨rfl, -⟩ := e
      exact .nil
  | x :: as, _, h₁, _, _, .drop hc hf, hva, hh, hv, hn, e => by
      have hfr := (mapAtoms_ok hcb _ false hh hv e).2.2.1 x.tree fun hm =>
        (List.nodup_cons.1 hn).1 (hf.sub.subset hm)
      exact .drop (hc.frame hfr) (mapAtoms_tracks hcb hstep hf (fun y hy => hva y (.tail _ hy))
        hh hv (List.nodup_cons.1 hn).2 e)
  | x :: as, y :: bs, h₁, cs, h₂, .keep hc hl hf, hva, hh, hv, hn, e => by
      simp only [mapAtoms, Bool.not_false, Bool.or_true, Option.bind_eq_bind, Option.bind_eq_some,
        Option.pure_def, Option.some.injEq] at e
      obtain ⟨⟨r, h₁'⟩, e₁, ⟨cs', h₂'⟩, e₂, rfl, rfl⟩ := e
      obtain ⟨hloc, -⟩ := hcb y _ h₁ r h₁' hh (hv y (.head _)) e₁
      have ht := lookup_tree hl
      have hf' := hf.frame fun z hz => hloc.frame _ (by rw [ht]; exact (not_mem_of_nodup hn z hz).symm)
      have hvs : ∀ z ∈ bs, h₁'.Valid z := fun z hz => (hv z (.tail _ hz)).grow hloc.grows
      have ih := mapAtoms_tracks hcb hstep hf' (fun z hz => hva z (.tail _ hz)) hloc.closed hvs
        (List.nodup_cons.1 hn).2 e₂
      have hfr := (mapAtoms_ok hcb bs false hloc.closed hvs e₂).2.2.1 x.tree fun hm =>
        (List.nodup_cons.1 hn).1 (hf.sub.subset hm)
      obtain ⟨hc', hr⟩ := hstep hc hl (hva x (.head _)) hh e₁
      cases r with
      | none => exact .drop (hc'.frame hfr) ih
      | some c => exact .keep (hc'.frame hfr) (by rw [lookup_congr hfr]; exact hr c rfl) ih

/-- `child(name)` on a lower layer: it acts only on a Map. -/
theorem childCallback_tracksStep {n : String} (hP : s ++ [n] <+: P) :
    TracksStep h₀ P s (s ++ [n]) (childCallback n) := by
  intro x y h₁ r h₂ hc hl hx hh e
  unfold childCallback at e
  split_ifs at e with hm
  · simp only [Option.some.injEq, Prod.mk.injEq] at e
    obtain ⟨rfl, rfl⟩ := e
    exact ⟨hc, fun _ h => nomatch h⟩
  · have hm' : (h₁.atom y).isMap := by simpa using hm
    obtain ⟨hc', -, hr⟩ := hc.child hl hx hh hP (fun _ => hm') e
    exact ⟨hc', fun c hc => (hr c hc).1⟩

/-- `convert(Map)` on a lower layer: it acts only on a Map. -/
theorem convertCallback_tracksStep (hs : s <+: P) : TracksStep h₀ P s s (convertCallback .map) := by
  intro x y h₁ r h₂ hc hl hx hh e
  unfold convertCallback at e
  split_ifs at e with hm <;> simp only [Option.some.injEq, Prod.mk.injEq] at e <;>
    obtain ⟨rfl, rfl⟩ := e
  · exact ⟨hc, fun _ h => nomatch h⟩
  · have hm' : (h₁.atom y).isMap := by simpa [Atom.isMap] using hm
    obtain ⟨hc', hl', -⟩ := hc.convert hl hx hh hs fun _ => hm'
    exact ⟨hc', fun c h => by cases h; exact hl'⟩

/-- `child(name)` on the written layer's node: writable, it answers the
layer's node one name further down. -/
theorem childCallback_spine {n : String} {h₁ h₂ : Heap} {r : Option Ptr}
    (hsp : Spine h₀ h₁ P s a b) (ha : h₀.Valid a) (hh : h₁.Closed) (hP : s ++ [n] <+: P)
    (hroot : s = [] → (h₁.atom b).isMap) (e : childCallback n b false h₁ = some (r, h₂)) :
    ∃ c, r = some c ∧ Spine h₀ h₂ P (s ++ [n]) a c := by
  simp only [childCallback, Bool.false_and, Bool.false_eq_true, if_false] at e
  obtain ⟨hc, hsome, hr⟩ := hsp.changed.child hsp.lookup ha hh hP hroot e
  obtain ⟨c, rfl⟩ := Option.isSome_iff_exists.1 (hsome hsp.writable)
  obtain ⟨hl, hro⟩ := hr c rfl
  exact ⟨c, rfl, hc, hl, hro.trans hsp.writable⟩

/-- `convert(Map)` on the written layer's node: it stays, a Map. -/
theorem convertCallback_spine {h₁ h₂ : Heap} {r : Option Ptr} (hsp : Spine h₀ h₁ P s a b)
    (ha : h₀.Valid a) (hh : h₁.Closed) (hs : s <+: P) (hroot : s = [] → (h₁.atom b).isMap)
    (e : convertCallback .map b false h₁ = some (r, h₂)) :
    r = some b ∧ Spine h₀ h₂ P s a b ∧ (h₂.atom b).isMap := by
  simp only [convertCallback, Bool.false_and, Bool.false_eq_true, if_false, Option.some.injEq,
    Prod.mk.injEq] at e
  obtain ⟨rfl, rfl⟩ := e
  obtain ⟨hc, hl, hro, hm⟩ := hsp.changed.convert hsp.lookup ha hh hs hroot
  exact ⟨rfl, ⟨hc, hl, hro.trans hsp.writable⟩, hm⟩

/-- The first callback of a level step acts on the written layer alone;
the rest of the level is processed past it. -/
theorem mapAtoms_head {cb : AtomCallback} (hcb : CallbackOK cb) {h₁ h₂ : Heap} {cs : List Ptr}
    (hn : ((a :: as).map Ptr.tree).Nodup) (hsp : Spine h₀ h₁ P s a b) (hf : Tracks h₀ h₁ P s as bs)
    (hh : h₁.Closed) (hv : ∀ y ∈ b :: bs, h₁.Valid y)
    (e : mapAtoms cb true (b :: bs) h₁ = some (cs, h₂)) :
    ∃ r h₁' cs', cb b false h₁ = some (r, h₁') ∧ mapAtoms cb false bs h₁' = some (cs', h₂) ∧
      cs = r.toList ++ cs' ∧ Tracks h₀ h₁' P s as bs ∧ h₁'.Closed ∧ (∀ y ∈ bs, h₁'.Valid y) ∧
      ∀ {h₁'' : Heap}, (∀ u, u ∉ bs.map Ptr.tree → h₂.trees u = h₁''.trees u) →
        h₂.trees a.tree = h₁''.trees a.tree := by
  simp only [mapAtoms, hsp.writable, Bool.not_true, Bool.or_false, Option.bind_eq_bind,
    Option.bind_eq_some, Option.pure_def, Option.some.injEq] at e
  obtain ⟨⟨r, h₁'⟩, e₁, ⟨cs', h₂'⟩, e₂, rfl, rfl⟩ := e
  obtain ⟨hloc, -⟩ := hcb b _ h₁ r h₁' hh (hv b (.head _)) e₁
  have ht := lookup_tree hsp.lookup
  refine ⟨r, h₁', cs', e₁, e₂, rfl, hf.frame fun z hz => hloc.frame _ ?_, hloc.closed,
    fun y hy => (hv y (.tail _ hy)).grow hloc.grows, fun hfr => hfr a.tree fun hm =>
      (List.nodup_cons.1 hn).1 (hf.sub.subset hm)⟩
  rw [ht]
  exact (not_mem_of_nodup hn z hz).symm

/-- `ConfigLevel::child(name)`: the written layer moves one name down
its path, and the lower layers stay tracked. -/
theorem child_tracks {n : String} {l l' : ConfigLevel} {h₁ h₂ : Heap}
    (hva : ∀ x ∈ a :: as, h₀.Valid x) (hn : ((a :: as).map Ptr.tree).Nodup)
    (hl : l.atoms = b :: bs) (hsp : Spine h₀ h₁ P s a b) (hf : Tracks h₀ h₁ P s as bs)
    (hh : h₁.Closed) (hok : l.OK h₁) (hP : s ++ [n] <+: P) (hroot : s = [] → (h₁.atom b).isMap)
    (e : l.child n h₁ = some (l', h₂)) :
    ∃ c cs, l'.atoms = c :: cs ∧ Spine h₀ h₂ P (s ++ [n]) a c ∧ Tracks h₀ h₂ P (s ++ [n]) as cs := by
  simp only [ConfigLevel.child, ConfigLevel.map, Option.map_eq_some', Prod.mk.injEq, hl] at e
  obtain ⟨⟨cs, h₂'⟩, e, rfl, rfl⟩ := e
  obtain ⟨r, h₁', cs', e₁, e₂, rfl, hf', hh', hv', hfr⟩ :=
    mapAtoms_head (childCallback_ok n) hn hsp hf hh (hl ▸ hok.valid) e
  obtain ⟨c, rfl, hsp'⟩ := childCallback_spine hsp (hva a (.head _)) hh hP hroot e₁
  have hrest := (mapAtoms_ok (childCallback_ok n) bs false hh' hv' e₂).2.2.1
  exact ⟨c, cs', rfl, hsp'.frame (hfr hrest), mapAtoms_tracks (childCallback_ok n)
    (childCallback_tracksStep hP) hf' (fun z hz => hva z (.tail _ hz)) hh' hv' (List.nodup_cons.1 hn).2 e₂⟩

/-- `ConfigLevel::convert(Map)`: the written layer's node becomes a
Map, and the lower layers stay tracked. -/
theorem convert_tracks {l l' : ConfigLevel} {h₁ h₂ : Heap}
    (hva : ∀ x ∈ a :: as, h₀.Valid x) (hn : ((a :: as).map Ptr.tree).Nodup)
    (hl : l.atoms = b :: bs) (hsp : Spine h₀ h₁ P s a b) (hf : Tracks h₀ h₁ P s as bs)
    (hh : h₁.Closed) (hok : l.OK h₁) (hs : s <+: P) (hroot : s = [] → (h₁.atom b).isMap)
    (e : l.convert .map h₁ = some (l', h₂)) :
    ∃ cs, l'.atoms = b :: cs ∧ Spine h₀ h₂ P s a b ∧ (h₂.atom b).isMap ∧ Tracks h₀ h₂ P s as cs := by
  simp only [ConfigLevel.convert, ConfigLevel.map, Option.map_eq_some', Prod.mk.injEq, hl] at e
  obtain ⟨⟨cs, h₂'⟩, e, rfl, rfl⟩ := e
  obtain ⟨r, h₁', cs', e₁, e₂, rfl, hf', hh', hv', hfr⟩ :=
    mapAtoms_head (convertCallback_ok .map) hn hsp hf hh (hl ▸ hok.valid) e
  obtain ⟨rfl, hsp', hm⟩ := convertCallback_spine hsp (hva a (.head _)) hh hs hroot e₁
  have hrest := hfr (mapAtoms_ok (convertCallback_ok .map) bs false hh' hv' e₂).2.2.1
  obtain ⟨x, -, rfl⟩ := lookup_some hsp.lookup
  refine ⟨cs', rfl, hsp'.frame hrest, by rw [atom_congr (q := ⟨a.tree, x⟩) hrest]; exact hm,
    mapAtoms_tracks (convertCallback_ok .map) (convertCallback_tracksStep hs) hf'
      (fun z hz => hva z (.tail _ hz)) hh' hv' (List.nodup_cons.1 hn).2 e₂⟩

/-- `ConfigLevel::child(names)`: the written layer follows the whole
path. -/
theorem childPath_tracks (hva : ∀ x ∈ a :: as, h₀.Valid x) (hn : ((a :: as).map Ptr.tree).Nodup) :
    ∀ (names : List String) {s : List String} {l l' : ConfigLevel} {h₁ h₂ : Heap} {b : Ptr}
      {bs : List Ptr}, l.atoms = b :: bs → Spine h₀ h₁ P s a b → Tracks h₀ h₁ P s as bs →
      h₁.Closed → l.OK h₁ → s ++ names <+: P → (s = [] → (h₁.atom b).isMap) →
      l.childPath names h₁ = some (l', h₂) →
      ∃ c cs, l'.atoms = c :: cs ∧ Spine h₀ h₂ P (s ++ names) a c ∧ Tracks h₀ h₂ P (s ++ names) as cs
  | [], s, l, l', h₁, h₂, b, bs, hl, hsp, hf, _, _, _, _, e => by
      simp only [ConfigLevel.childPath, Option.some.injEq, Prod.mk.injEq] at e
      obtain ⟨rfl, rfl⟩ := e
      exact ⟨b, bs, hl, by simpa using hsp, by simpa using hf⟩
  | n :: ns, s, l, l', h₁, h₂, b, bs, hl, hsp, hf, hh, hok, hP, hroot, e => by
      simp only [ConfigLevel.childPath, Option.bind_eq_bind, Option.bind_eq_some] at e
      obtain ⟨⟨l₁, h₁'⟩, e₁, e₂⟩ := e
      have hP' : s ++ [n] ++ ns <+: P := by simpa using hP
      have s₁ := ConfigLevel.map_step (childCallback_ok n) hok hh e₁
      obtain ⟨c, cs, hl₁, hsp₁, hf₁⟩ :=
        child_tracks hva hn hl hsp hf hh hok ((List.prefix_append _ _).trans hP') hroot e₁
      simpa using childPath_tracks hva hn ns hl₁ hsp₁ hf₁ s₁.closed s₁.ok hP'
        (fun h => absurd h (by simp)) e₂

/-- `ConfigLevel::child(names)` and then `convert(Map)`, from a level
whose first atom is a writable Map: the level reached has that layer's
node at the path first, a writable Map, and the lower layers stay
tracked. -/
theorem walk_tracks {ns : List String} {l l₁ L : ConfigLevel} {h₁ h : Heap} (hl : l.OK h₀)
    (hh : h₀.Closed) (hat : l.atoms = a :: as) (hwa : (h₀.atom a).readOnly = false)
    (hma : (h₀.atom a).isMap) (hP : ns <+: P) (e₁ : l.childPath ns h₀ = some (l₁, h₁))
    (e₂ : l₁.convert .map h₁ = some (L, h)) :
    ∃ b bs, L.atoms = b :: bs ∧ Spine h₀ h P ns a b ∧ (h.atom b).isMap ∧ Tracks h₀ h P ns as bs := by
  have hva : ∀ x ∈ a :: as, h₀.Valid x := hat ▸ hl.valid
  have hn : ((a :: as).map Ptr.tree).Nodup := hat ▸ hl.separate
  have s₁ := ConfigLevel.childPath_step ns hl hh e₁
  obtain ⟨c, cs, hl₁, hsp₁, hf₁⟩ := childPath_tracks hva hn ns hat
    ⟨Tree.ChangedAlong.refl _ _ _, lookup_nil h₀ a, hwa⟩ (Tracks.refl as) hh hl (by simpa using hP)
    (fun _ => hma) e₁
  simp only [List.nil_append] at hsp₁ hf₁
  have hroot : ns = [] → (h₁.atom c).isMap := by
    rintro rfl
    simp only [ConfigLevel.childPath, Option.some.injEq, Prod.mk.injEq] at e₁
    obtain ⟨rfl, rfl⟩ := e₁
    obtain ⟨rfl, -⟩ := List.cons.inj (hat.symm.trans hl₁)
    exact hma
  obtain ⟨cs', hl₂, hsp₂, hm₂, hf₂⟩ := convert_tracks hva hn hl₁ hsp₁ hf₁ s₁.closed s₁.ok hP hroot e₂
  exact ⟨c, cs', hl₂, hsp₂, hm₂, hf₂⟩

/-- `Config::beginGroup(name)` from a level whose first atom is a
writable Map: the group level's first atom is that layer's node at the
group path, a writable Map, and the lower layers stay tracked. -/
theorem beginGroup_tracks {name : String} {d d' : ConfigPrivate} {h : Heap} (hd : d.OK h₀)
    (hh : h₀.Closed) (hat : d.current.atoms = a :: as) (hwa : (h₀.atom a).readOnly = false)
    (hma : (h₀.atom a).isMap) (hnames : parseNames name ≠ []) (hP : parseNames name <+: P)
    (e : beginGroup name d h₀ = some (d', h)) :
    h.Closed ∧ d'.pop = some d ∧ ∃ b bs, d'.current.atoms = b :: bs ∧
      Spine h₀ h P (parseNames name) a b ∧ (h.atom b).isMap ∧ Tracks h₀ h P (parseNames name) as bs := by
  simp only [beginGroup, Option.bind_eq_bind, Option.bind_eq_some, Option.guard_eq_some,
    Option.pure_def, Option.some.injEq, Prod.mk.injEq] at e
  obtain ⟨-, -, -, -, ⟨l₁, h₁⟩, e₁, ⟨l₂, h₂⟩, e₂, rfl, rfl⟩ := e
  have s₁ := childNames_step hd.current hh e₁
  rw [ConfigLevel.childNames, if_neg hnames] at e₁
  have s₂ := ConfigLevel.map_step (convertCallback_ok .map) s₁.ok s₁.closed e₂
  exact ⟨s₂.closed, rfl, walk_tracks hd.current hh hat hwa hma hP e₁ e₂⟩

/-- The names of a key's group part, if it has one. -/
def keyGroupPath (key : String) : List String :=
  if slashIndex key = -1 then [] else parseNames (keyGroup key)

theorem keyPath_eq (key : String) : keyPath key = keyGroupPath key ++ [keyName key] := rfl

/-- `enterKey` from a level whose first atom is a writable Map, on a key
whose group part names a path: the level it enters has that layer's
writable Map at the group path first, and `leaveKey` comes back. -/
theorem enterKey_spine {key : String} {d : ConfigPrivate} (hd : d.OK h₀) (hh : h₀.Closed)
    (hat : d.current.atoms = a :: as) (hwa : (h₀.atom a).readOnly = false)
    (hma : (h₀.atom a).isMap) (hkey : slashIndex key = -1 ∨ parseNames (keyGroup key) ≠ []) :
    ∃ d₁ h₁ b bs, enterKey key d h₀ = some (d₁, h₁) ∧ leaveKey key d₁ = some d ∧ h₁.Closed ∧
      d₁.current.atoms = b :: bs ∧ Spine h₀ h₁ (keyPath key) (keyGroupPath key) a b ∧
      (h₁.atom b).isMap ∧ Tracks h₀ h₁ (keyPath key) (keyGroupPath key) as bs := by
  by_cases hs : slashIndex key = -1
  · refine ⟨d, h₀, a, as, by simp [enterKey, hs], by simp [leaveKey, hs], hh, hat, ?_, hma, ?_⟩
    · exact ⟨Tree.ChangedAlong.refl _ _ _, by simp [keyGroupPath, hs, lookup_nil], hwa⟩
    · simpa [keyGroupPath, hs] using Tracks.refl (h := h₀) (P := keyPath key) as
  · have hn := hkey.resolve_left hs
    have hg : keyGroupPath key = parseNames (keyGroup key) := by simp [keyGroupPath, hs]
    obtain ⟨l, h₁, e, -⟩ := beginGroup_follows hd hh hn
    obtain ⟨hc, hpop, b, bs, hl, hsp, hm, hf⟩ := beginGroup_tracks (P := keyPath key) hd hh hat hwa
      hma hn (by rw [keyPath_eq, hg]; exact List.prefix_append _ _) e
    exact ⟨d.push l, h₁, b, bs, by simp [enterKey, hs, e], by simp [leaveKey, hs, endGroup, hpop],
      hc, hl, hg ▸ hsp, hm, hg ▸ hf⟩

/-- `enterKey` from a level whose first atom is a writable Map, on a key
whose group part names a path: the level entered starts with the first
layer's node at the group path, a writable Map. Either the layer had
that node, and navigation left its region as it was; or the layer had no
Map there, and the node carries nothing. -/
theorem enterKey_first {key : String} {d : ConfigPrivate} (hd : d.OK h) (hh : h.Closed)
    (hat : d.current.atoms = a :: as) (hwa : (h.atom a).readOnly = false) (hma : (h.atom a).isMap)
    (hkey : slashIndex key = -1 ∨ parseNames (keyGroup key) ≠ []) :
    ∃ d₁ h₁ b bs, enterKey key d h = some (d₁, h₁) ∧ leaveKey key d₁ = some d ∧ OpOK h h₁ d₁ ∧
      d₁.current.atoms = b :: bs ∧ h₁.lookup a (keyGroupPath key) = some b ∧
      (h₁.atom b).readOnly = false ∧ (h₁.atom b).isMap ∧
      (h.lookup a (keyGroupPath key) = some b ∧ h₁.trees a.tree = h.trees a.tree ∨
        h.Barren a (keyGroupPath key) ∧ (h₁.atom b).Hollow) := by
  obtain ⟨d₁, h₁, b, bs, e₁, e₄, -, hat₁, hsp, hmb, -⟩ := enterKey_spine hd hh hat hwa hma hkey
  refine ⟨d₁, h₁, b, bs, e₁, e₄, enterKey_ok hd hh e₁, hat₁, hsp.lookup, hsp.writable, hmb, ?_⟩
  by_cases hs : slashIndex key = -1
  · -- no group part: nothing is navigated
    simp only [enterKey, hs, if_true, Option.some.injEq, Prod.mk.injEq] at e₁
    obtain ⟨rfl, rfl⟩ := e₁
    exact .inl ⟨hsp.lookup, rfl⟩
  · have hg : keyGroupPath key = parseNames (keyGroup key) := by simp [keyGroupPath, hs]
    obtain ⟨l, h₂, e, -, -, hf, -⟩ := beginGroup_follows hd hh (hkey.resolve_left hs)
    rw [enterKey, if_neg hs, e, Option.some.injEq, Prod.mk.injEq] at e₁
    obtain ⟨rfl, rfl⟩ := e₁
    rw [hat, show l.atoms = b :: bs from hat₁] at hf
    have hn : ((a :: as).map Ptr.tree).Nodup := hat ▸ hd.current.separate
    rw [hg]
    rcases hf.stands_head hn (lookup_tree hsp.lookup) with ⟨e, hr⟩ | ⟨hb, -, hb'⟩
    · exact .inl ⟨e, hr⟩
    · exact .inr ⟨hb, hb'⟩

/-- `fromVariant` then `replace(name, …)` on layer `a`'s Map at `s`, for
`P`'s last name: the layer's region changes along `P` only, no other
region changes, and the node at `P` materialises as `replace` leaves it,
given the tree that was there, when the value is one a `QVariant` can
hold. -/
theorem store_changedAlong {h₁ : Heap} {name : String} {v : Variant} (hh : h₁.Closed)
    (hc : h₀.ChangedAlong h₁ P a) (ha : h₀.Valid a) (hl : h₁.lookup a s = some b)
    (hP : s ++ [name] = P) (hm : (h₁.atom b).isMap) :
    ∃ changed h₂, (h₁.fromVariant b.tree v false).2.replace b name
        (h₁.fromVariant b.tree v false).1.addr = some (changed, h₂) ∧
      h₀.ChangedAlong h₂ P a ∧ (∀ t, t ≠ a.tree → h₂.trees t = h₁.trees t) ∧
      ∃ q, h₂.lookup a P = some q ∧ (v.canonical = true →
        h₂.materialize q = Variant.kept ((h₁.lookup a P).map h₁.materialize) v) := by
  obtain ⟨x, hx, rfl⟩ := lookup_some hl
  have ha' := hc.lt ha
  have hxn : x < (h₁.trees a.tree).next := ((Tree.lookup_reach hx).bound (hh _) ha').2
  obtain ⟨hT₂, hlt, hframe, -⟩ := (hh a.tree).fromVariant_spec false v
  have hx₂ : (Tree.fromVariant false v (h₁.trees a.tree)).2.lookup a.addr s = some x :=
    (Tree.lookup_congr (fun z hz => hframe z (hz.bound (hh _) ha').2) s).trans hx
  have hm₂ : ((Tree.fromVariant false v (h₁.trees a.tree)).2.cells x).isMap := hframe x hxn ▸ hm
  obtain ⟨⟨changed, T₃⟩, e₃⟩ := Tree.replace_isSome hm₂ name (h₁.trees a.tree).next
  obtain ⟨hc₃, y, hy, hmy⟩ := Tree.ChangedAlong.replace hT₂ (ha'.trans hlt) hx₂ hP hlt hxn e₃
  have hc₂ := Tree.ChangedAlong.of_frame (hh _) ha' hframe hlt.le P
  -- the new tree is built past the region, so the old tree at `P` stays
  have hold : ((Tree.fromVariant false v (h₁.trees a.tree)).2.lookup a.addr P).map
      (Tree.fromVariant false v (h₁.trees a.tree)).2.materialize = (h₁.lookup a P).map h₁.materialize := by
    rw [Tree.lookup_congr (fun z hz => hframe z (hz.bound (hh _) ha').2) P]
    cases hz : (h₁.trees a.tree).lookup a.addr P with
    | none => simp [lookup, hz]
    | some z =>
      have hzn := ((Tree.lookup_reach hz).bound (hh _) ha').2
      simp only [lookup, hz, Option.map_some', Heap.materialize]
      exact congrArg some
        (Tree.materialize_congr (hh _) hzn hlt.le fun y hy => hframe y (hy.bound (hh _) hzn).2)
  refine ⟨changed, (h₁.update a.tree (Tree.fromVariant false v (h₁.trees a.tree)).2).update a.tree T₃,
    by simp [Heap.fromVariant, Heap.replace, e₃], hc.trans (by simpa [ChangedAlong] using hc₂.trans hc₃),
    fun t ht => by simp [update_trees_ne _ _ ht], ⟨a.tree, y⟩, by simp [lookup, hy], fun hv => ?_⟩
  rw [Heap.materialize, update_trees_self, hmy, hold, ← Tree.fromVariant_fst false v (h₁.trees a.tree),
    Tree.materialize_fromVariant false (hh _) hv]

end Navigation

-- ========================================================= the write

/-- A level whose first atom, a Map, answers the key reads it. -/
theorem readKey_of_first {h : Heap} {a : Ptr} {as : List Ptr} {key : String} {v : Variant}
    (hm : (h.atom a).isMap) (hc : h.contribution a (keyPath key) = some v)
    (hkey : slashIndex key = -1 ∨ parseNames (keyGroup key) ≠ []) :
    readKey h (a :: as) key = some (some v) := by
  unfold readKey
  by_cases hs : slashIndex key = -1
  · simp [hs, readLayers, hm, hc]
  · simp [hs, hkey.resolve_left hs, hc]

theorem World.config_setConfig_self {w : World} {c : Nat} {d d' : ConfigPrivate}
    (hd : w.config c = some d') : (w.setConfig c d).config c = some d := by
  have hc : c < w.configs.length := by
    by_contra hlt
    simp [World.config, List.getElem?_eq_none (not_lt.1 hlt)] at hd
  simp [World.config, World.setConfig, hc]

/-- One writable file holding a group `g`. -/
def writableGroupFile : FileSystem :=
  .ofList [("home/a.json", ⟨.map [("g", .map [("x", .scalar (.int 1))])], 0, true⟩)]

section EmptyGroup

variable {cs : CryptoService} {key : String} {d : ConfigPrivate}

/-- A key with a `/` whose group part names no path (`/x`, `//x`):
`beginGroup` asserts, so `value` fails on every cursor with a layer. -/
theorem value_of_empty_group (hs : slashIndex key ≠ -1) (hn : parseNames (keyGroup key) = [])
    (hd : d.current.atoms ≠ []) (dflt : Variant) (flags : ValueFlags) (h : Heap) :
    value cs key dflt flags d h = none := by
  simp [value, hd, enterKey, hs, beginGroup_of_names_nil hn]

/-- The same key makes `setValue` fail on every cursor with a layer. -/
theorem setValue_of_empty_group (hs : slashIndex key ≠ -1) (hn : parseNames (keyGroup key) = [])
    (hd : d.current.atoms ≠ []) (v : Variant) (flags : ValueFlags) (s : Store) :
    setValue cs key v flags d s = none := by
  simp [setValue, hd, enterKey, hs, beginGroup_of_names_nil hn]

end EmptyGroup

/-- Over one writable file, with the cursor's one atom a writable Map,
`value("/x")` and `setValue("//x", 1)` fail: the group parts `""` and
`"/"` reach `beginGroup`'s assertions. -/
theorem value_asserts_on_leading_slash :
    ∃ w, run Env.sample ⟨id, id⟩ (World.init writableGroupFile) [.construct ["a"] [] none] = some w ∧
      ∃ d a, w.config 0 = some d ∧ d.current.atoms = [a] ∧ (w.store.heap.atom a).isMap ∧
        (w.store.heap.atom a).readOnly = false ∧
        step Env.sample ⟨id, id⟩ w (.value 0 "/x" .invalid ⟨false⟩) = none ∧
        step Env.sample ⟨id, id⟩ w (.setValue 0 "//x" (.scalar (.int 1)) ⟨false⟩) = none :=
  ⟨_, rfl, _, _, rfl, rfl, rfl, rfl, rfl, rfl⟩

end QutimConfig
