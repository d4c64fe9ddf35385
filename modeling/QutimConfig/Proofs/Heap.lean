/-
The heap invariant and the level invariant: every region is closed, and
every level of every live cursor holds allocated nodes of regions in
use, one per region. Each `ConfigLevel` operation keeps both, changes
only the regions of its own layers, and only grows the heap — so the
levels it does not touch stay valid.
-/
import QutimConfig.Level
import QutimConfig.Proofs.Region

namespace QutimConfig

namespace Heap

variable {h h' h'' : Heap}

/-- Every region of the heap is closed. -/
def Closed (h : Heap) : Prop := ∀ t, (h.trees t).Closed

/-- A pointer to an allocated node of a region in use. -/
def Valid (h : Heap) (p : Ptr) : Prop := p.tree < h.count ∧ p.addr < (h.trees p.tree).next

/-- `h'` extends `h`: no region in use is shrunk or reset. -/
structure Grows (h h' : Heap) : Prop where
  count : h.count ≤ h'.count
  next : ∀ t < h.count, (h.trees t).next ≤ (h'.trees t).next

theorem Grows.refl (h : Heap) : h.Grows h := ⟨le_rfl, fun _ _ => le_rfl⟩

theorem Grows.trans (h₁ : h.Grows h') (h₂ : h'.Grows h'') : h.Grows h'' :=
  ⟨h₁.count.trans h₂.count, fun t ht => (h₁.next t ht).trans (h₂.next t (by have := h₁.count; omega))⟩

theorem Valid.grow {p : Ptr} (hp : h.Valid p) (hg : h.Grows h') : h'.Valid p :=
  ⟨by have := hg.count; have := hp.1; omega, by have := hg.next _ hp.1; have := hp.2; omega⟩

/-- Writing back region `t` after a closed, growing operation. -/
theorem update_ok (hh : h.Closed) {t : Nat} (ht : t < h.count) {T : Tree} (hT : T.Closed)
    (hn : (h.trees t).next ≤ T.next) :
    (h.update t T).Closed ∧ h.Grows (h.update t T) := by
  refine ⟨fun u => ?_, ⟨le_rfl, fun u _ => ?_⟩⟩
  · by_cases hu : u = t
    · subst hu; simpa using hT
    · rw [update_trees_ne _ _ hu]; exact hh u
  · by_cases hu : u = t
    · subst hu; simpa using hn
    · rw [update_trees_ne _ _ hu]

/-- An operation on region `t` kept the heap closed, grew it, and left
every other region as it was. -/
structure Local (h h' : Heap) (t : Nat) : Prop where
  closed : h'.Closed
  grows : h.Grows h'
  frame : ∀ u, u ≠ t → h'.trees u = h.trees u

theorem Local.trans {t : Nat} (h₁ : h.Local h' t) (h₂ : h'.Local h'' t) : h.Local h'' t :=
  ⟨h₂.closed, h₁.grows.trans h₂.grows, fun u hu => (h₂.frame u hu).trans (h₁.frame u hu)⟩

theorem local_update (hh : h.Closed) {t : Nat} (ht : t < h.count) {T : Tree} (hT : T.Closed)
    (hn : (h.trees t).next ≤ T.next) : h.Local (h.update t T) t :=
  ⟨(update_ok hh ht hT hn).1, (update_ok hh ht hT hn).2, fun _ hu => update_trees_ne _ _ hu⟩

/-- A node of region `t` that the new region has allocated. -/
theorem valid_of_update {t : Nat} (ht : t < h.count) {T : Tree} {c : Nat} (hc : c < T.next) :
    (h.update t T).Valid ⟨t, c⟩ :=
  ⟨by simpa using ht, by simpa using hc⟩

variable {p : Ptr}

theorem child_local (hh : h.Closed) (hp : h.Valid p) {name : String} {r : Option Ptr}
    (e : h.child p name = some (r, h')) :
    h.Local h' p.tree ∧ ∀ c ∈ r, c.tree = p.tree ∧ h'.Valid c := by
  simp only [Heap.child, Option.map_eq_some', Prod.mk.injEq] at e
  obtain ⟨⟨r₀, T⟩, e, rfl, rfl⟩ := e
  obtain ⟨hT, hn, hr⟩ := (hh p.tree).child hp.2 e
  refine ⟨local_update hh hp.1 hT hn, fun c hc => ?_⟩
  simp only [Option.mem_def, Option.map_eq_some'] at hc
  obtain ⟨c, hc, rfl⟩ := hc
  exact ⟨rfl, valid_of_update hp.1 (hr c hc)⟩

theorem childAt_local (hh : h.Closed) (hp : h.Valid p) {index : Int} {r : Option Ptr}
    (e : h.childAt p index = some (r, h')) :
    h.Local h' p.tree ∧ ∀ c ∈ r, c.tree = p.tree ∧ h'.Valid c := by
  simp only [Heap.childAt, Option.map_eq_some', Prod.mk.injEq] at e
  obtain ⟨⟨r₀, T⟩, e, rfl, rfl⟩ := e
  obtain ⟨hT, hn, hr⟩ := (hh p.tree).childAt hp.2 e
  refine ⟨local_update hh hp.1 hT hn, fun c hc => ?_⟩
  simp only [Option.mem_def, Option.map_eq_some'] at hc
  obtain ⟨c, hc, rfl⟩ := hc
  exact ⟨rfl, valid_of_update hp.1 (hr c hc)⟩

theorem convert_local (hh : h.Closed) (hp : h.Valid p) (type : AtomType) :
    h.Local (h.convert p type) p.tree :=
  local_update hh hp.1 ((hh p.tree).convert hp.2 type) (by simp)

theorem remove_local (hh : h.Closed) (hp : h.Valid p) {name : String} {b : Bool}
    (e : h.remove p name = some (b, h')) : h.Local h' p.tree := by
  simp only [Heap.remove, Option.map_eq_some', Prod.mk.injEq] at e
  obtain ⟨⟨b₀, T⟩, e, rfl, rfl⟩ := e
  obtain ⟨hT, hn⟩ := (hh p.tree).remove hp.2 e
  exact local_update hh hp.1 hT hn.ge

theorem removeAt_local (hh : h.Closed) (hp : h.Valid p) {index : Int} {b : Bool}
    (e : h.removeAt p index = some (b, h')) : h.Local h' p.tree := by
  simp only [Heap.removeAt, Option.map_eq_some', Prod.mk.injEq] at e
  obtain ⟨⟨b₀, T⟩, e, rfl, rfl⟩ := e
  obtain ⟨hT, hn⟩ := (hh p.tree).removeAt hp.2 e
  exact local_update hh hp.1 hT hn.ge

theorem replace_local (hh : h.Closed) (hp : h.Valid p) {name : String} {v : Nat}
    (hv : v < (h.trees p.tree).next) (hav : p.addr < v) (hor : (h.trees p.tree).Orphan v)
    (hro : ((h.trees p.tree).cells v).readOnly = ((h.trees p.tree).cells p.addr).readOnly) {b : Bool}
    (e : h.replace p name v = some (b, h')) : h.Local h' p.tree := by
  simp only [Heap.replace, Option.map_eq_some', Prod.mk.injEq] at e
  obtain ⟨⟨b₀, T⟩, e, rfl, rfl⟩ := e
  obtain ⟨hT, hn⟩ := (hh p.tree).replace hp.2 hv hav hor hro e
  exact local_update hh hp.1 hT hn.ge

theorem fromVariant_local (hh : h.Closed) {t : Nat} (ht : t < h.count) (v : Variant) (ro : Bool) :
    h.Local (h.fromVariant t v ro).2 t ∧ (h.fromVariant t v ro).2.Valid (h.fromVariant t v ro).1 := by
  obtain ⟨hT, hn, hr⟩ := (hh t).fromVariant ro v
  exact ⟨local_update hh ht hT hn, valid_of_update ht hr⟩

/-- The root `fromVariant` answers is the region's next free address,
an orphan with the requested read-only flag, and the old nodes are as
they were. -/
theorem fromVariant_root (hh : h.Closed) (t : Nat) (v : Variant) (ro : Bool) :
    (h.fromVariant t v ro).1.addr = (h.trees t).next ∧
    ((h.fromVariant t v ro).2.trees t).Orphan (h.fromVariant t v ro).1.addr ∧
    (((h.fromVariant t v ro).2.trees t).cells (h.fromVariant t v ro).1.addr).readOnly = ro ∧
    ∀ b < (h.trees t).next, ((h.fromVariant t v ro).2.trees t).cells b = (h.trees t).cells b := by
  obtain ⟨h₁, -, h₃, h₄⟩ := (hh t).fromVariant_spec ro v
  refine ⟨by simp [Heap.fromVariant], ?_⟩
  simp only [Heap.fromVariant, update_trees_self, Tree.fromVariant_fst]
  exact ⟨(hh t).orphan_next h₁ h₃, h₄, h₃⟩

end Heap

end QutimConfig

namespace QutimConfig

open Heap

variable {h h' : Heap}

-- ========================================================== callbacks

/-- A `ConfigLevel::map` callback that keeps the heap closed, touches
only the region of its atom, and answers a valid node of that region. -/
def CallbackOK (cb : AtomCallback) : Prop :=
  ∀ a ro h r h', Heap.Closed h → h.Valid a → cb a ro h = some (r, h') →
    h.Local h' a.tree ∧ ∀ c ∈ r, c.tree = a.tree ∧ h'.Valid c

theorem Heap.Local.refl (hh : h.Closed) (t : Nat) : h.Local h t :=
  ⟨hh, Grows.refl h, fun _ _ => rfl⟩

theorem childCallback_ok (name : String) : CallbackOK (childCallback name) := by
  intro a ro h r h' hh ha e
  simp only [childCallback] at e
  split_ifs at e
  · simp only [Option.some.injEq, Prod.mk.injEq] at e
    obtain ⟨rfl, rfl⟩ := e
    exact ⟨.refl hh _, by simp⟩
  · exact child_local hh ha e

theorem childAtCallback_ok (index : Int) : CallbackOK (childAtCallback index) := by
  intro a ro h r h' hh ha e
  simp only [childAtCallback] at e
  split_ifs at e
  · simp only [Option.some.injEq, Prod.mk.injEq] at e
    obtain ⟨rfl, rfl⟩ := e
    exact ⟨.refl hh _, by simp⟩
  · exact childAt_local hh ha e

theorem convertCallback_ok (type : AtomType) : CallbackOK (convertCallback type) := by
  intro a ro h r h' hh ha e
  simp only [convertCallback] at e
  split_ifs at e <;> simp only [Option.some.injEq, Prod.mk.injEq] at e <;> obtain ⟨rfl, rfl⟩ := e
  · exact ⟨.refl hh _, by simp⟩
  · have hl := convert_local hh ha type
    exact ⟨hl, by simpa using ha.grow hl.grows⟩

/-- `ConfigLevel::map` with a well-behaved callback: the heap stays
closed and grows, only the layers' regions change, and the results are
valid nodes of the layers' regions, in layer order. -/
theorem mapAtoms_ok {cb : AtomCallback} (hcb : CallbackOK cb) :
    ∀ (as : List Ptr) (first : Bool) {h : Heap} {rs : List Ptr} {h' : Heap},
      h.Closed → (∀ a ∈ as, h.Valid a) → mapAtoms cb first as h = some (rs, h') →
      h'.Closed ∧ h.Grows h' ∧ (∀ u, u ∉ as.map Ptr.tree → h'.trees u = h.trees u) ∧
        (rs.map Ptr.tree).Sublist (as.map Ptr.tree) ∧ ∀ c ∈ rs, h'.Valid c
  | [], _, h, rs, h', hh, _, e => by
      simp only [mapAtoms, Option.some.injEq, Prod.mk.injEq] at e
      obtain ⟨rfl, rfl⟩ := e
      exact ⟨hh, Grows.refl h, fun _ _ => rfl, by simp, by simp⟩
  | a :: as, first, h, rs, h', hh, hv, e => by
      simp only [mapAtoms, Option.bind_eq_bind, Option.bind_eq_some, Option.pure_def,
        Option.some.injEq] at e
      obtain ⟨⟨r, h₁⟩, e₁, ⟨rs', h₂⟩, e₂, rfl, rfl⟩ := e
      obtain ⟨hl, hr⟩ := hcb a _ h r h₁ hh (hv a (by simp)) e₁
      obtain ⟨hc₂, hg₂, hf₂, hs₂, hv₂⟩ := mapAtoms_ok hcb as false hl.closed
        (fun b hb => (hv b (by simp [hb])).grow hl.grows) e₂
      refine ⟨hc₂, hl.grows.trans hg₂, fun u hu => ?_, ?_, fun c hc => ?_⟩
      · simp only [List.map_cons, List.mem_cons, not_or] at hu
        rw [hf₂ u hu.2, hl.frame u hu.1]
      · simp only [List.map_append, List.map_cons]
        cases r with
        | none => exact hs₂.cons _
        | some c =>
            simpa [(hr c rfl).1] using hs₂.cons₂ a.tree
      · simp only [List.mem_append, Option.mem_toList] at hc
        rcases hc with hc | hc
        · exact (hr c hc).2.grow hg₂
        · exact hv₂ c hc

-- ============================================================ levels

/-- The layers of a level are allocated nodes of regions in use, one
per region. -/
structure ConfigLevel.OK (h : Heap) (l : ConfigLevel) : Prop where
  valid : ∀ a ∈ l.atoms, h.Valid a
  separate : (l.atoms.map Ptr.tree).Nodup

theorem ConfigLevel.OK.grow {l : ConfigLevel} (hl : l.OK h) (hg : h.Grows h') : l.OK h' :=
  ⟨fun a ha => (hl.valid a ha).grow hg, hl.separate⟩

/-- What a level operation guarantees: the new level is sound, the heap
closed and grown, and regions outside the level untouched. -/
structure LevelStep (h : Heap) (l : ConfigLevel) (h' : Heap) (l' : ConfigLevel) : Prop where
  ok : l'.OK h'
  closed : h'.Closed
  grows : h.Grows h'
  frame : ∀ u, u ∉ l.atoms.map Ptr.tree → h'.trees u = h.trees u
  sub : (l'.atoms.map Ptr.tree).Sublist (l.atoms.map Ptr.tree)

theorem LevelStep.trans {l l' l'' : ConfigLevel} {h'' : Heap} (s₁ : LevelStep h l h' l')
    (s₂ : LevelStep h' l' h'' l'') : LevelStep h l h'' l'' :=
  ⟨s₂.ok, s₂.closed, s₁.grows.trans s₂.grows,
    fun u hu => (s₂.frame u fun hu' => hu (s₁.sub.subset hu')).trans (s₁.frame u hu),
    s₂.sub.trans s₁.sub⟩

theorem ConfigLevel.map_step {cb : AtomCallback} (hcb : CallbackOK cb) {l l' : ConfigLevel}
    (hl : l.OK h) (hh : h.Closed) (e : l.map cb h = some (l', h')) : LevelStep h l h' l' := by
  simp only [ConfigLevel.map, Option.map_eq_some', Prod.mk.injEq] at e
  obtain ⟨⟨rs, h₁⟩, e, rfl, rfl⟩ := e
  obtain ⟨hc, hg, hf, hs, hv⟩ := mapAtoms_ok hcb l.atoms true hh hl.valid e
  exact ⟨⟨hv, hs.nodup hl.separate⟩, hc, hg, hf, hs⟩

theorem ConfigLevel.childPath_step :
    ∀ (names : List String) {l l' : ConfigLevel} {h h' : Heap}, l.OK h → h.Closed →
      l.childPath names h = some (l', h') → LevelStep h l h' l'
  | [], l, l', h, h', hl, hh, e => by
      simp only [ConfigLevel.childPath, Option.some.injEq, Prod.mk.injEq] at e
      obtain ⟨rfl, rfl⟩ := e
      exact ⟨hl, hh, Grows.refl h, fun _ _ => rfl, List.Sublist.refl _⟩
  | n :: ns, l, l', h, h', hl, hh, e => by
      simp only [ConfigLevel.childPath, Option.bind_eq_bind, Option.bind_eq_some] at e
      obtain ⟨⟨l₁, h₁⟩, e₁, e₂⟩ := e
      have s₁ := ConfigLevel.map_step (childCallback_ok n) hl hh e₁
      exact s₁.trans (childPath_step ns s₁.ok s₁.closed e₂)

end QutimConfig
