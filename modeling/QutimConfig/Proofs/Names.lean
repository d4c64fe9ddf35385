/-
`parseNames` (config.cpp:891-903): the `do … while` loop that cuts a
path at each `/`.

# The loop

A pass looks for the next `/` from `first`; the text before it is kept
as a name unless it is empty; `first` moves past the `/`, and the loop
stops once `indexOf` answers `-1` and `first` wraps back to `0`. So a
pass either stops or moves `first` forward, and with more passes left
than characters the loop leaves by its own test
(`parseNamesExits_of_lt`) and appends the non-empty segments of the
rest of the text (`parseNamesFrom_eq`), the pieces `List.splitOnP` cuts
(`segments`).

`parseNames` is therefore `String.split` at `/` with the empty pieces
dropped, and it inverts joining non-empty names at `/`
(`parseNames_splits`).
-/
import QutimConfig.Level
import Mathlib.Data.String.Basic

namespace QutimConfig


/-- The names of a path as the spec reads it: split at every `/`, the
empty segments dropped. -/
def splitNames (s : String) : List String := (s.split (· = '/')).filter (· ≠ "")

/-- The non-empty `/`-separated segments of a text. -/
def segments (cs : List Char) : List String :=
  ((cs.splitOnP (· = '/')).filter (· ≠ [])).map String.mk

theorem isEmpty_mk (l : List Char) : (String.mk l).isEmpty = true ↔ l = [] := by
  rw [String.isEmpty_iff, String.ext_iff]

/-- With no `/` left, the rest is one segment, if it is not empty. -/
theorem segments_of_none {cs : List Char} (h : cs.findIdx? (· = '/') = none) :
    segments cs = if cs = [] then [] else [⟨cs⟩] := by
  rw [segments, List.splitOnP_eq_single _ _ (by simpa using List.findIdx?_eq_none_iff.1 h)]
  by_cases hc : cs = [] <;> simp [hc]

/-- The segment up to the first `/`, if it is not empty, then those
after it. -/
theorem segments_of_some {cs : List Char} {i : Nat} (h : cs.findIdx? (· = '/') = some i) :
    segments cs = (if cs.take i = [] then [] else [⟨cs.take i⟩]) ++ segments (cs.drop (i + 1)) := by
  obtain ⟨hi, hp, hbefore⟩ := List.findIdx?_eq_some_iff_getElem.1 h
  have hsplit : cs = cs.take i ++ '/' :: cs.drop (i + 1) := by
    have := (List.take_append_drop i cs).symm
    rwa [List.drop_eq_getElem_cons hi, (by simpa using hp : cs[i] = '/')] at this
  have hfree : ∀ x ∈ cs.take i, ¬decide (x = '/') = true := by
    intro x hx
    obtain ⟨j, hj, rfl⟩ := List.getElem_of_mem hx
    simp only [List.getElem_take]
    exact hbefore j (by simp at hj; omega)
  have hcut : cs.splitOnP (· = '/') = cs.take i :: (cs.drop (i + 1)).splitOnP (· = '/') := by
    conv_lhs => rw [hsplit]
    exact List.splitOnP_first _ _ hfree _ (by simp) _
  rw [segments, hcut, segments]
  by_cases h0 : cs.take i = [] <;> simp [h0]

@[simp] theorem mid_neg_one (s : String) (first : Nat) :
    QString.mid s first (-1) = ⟨s.data.drop first⟩ := rfl

@[simp] theorem mid_natCast (s : String) (first i : Nat) :
    QString.mid s first i = ⟨(s.data.drop first).take i⟩ := by
  rw [QString.mid, if_neg (by omega)]
  rfl

/-- The loop invariant of `parseNames`: from `first`, with more passes
left than characters, the loop appends the segments of the rest. -/
theorem parseNamesFrom_eq (s : String) : ∀ (fuel first : Nat) (names : List String),
    s.length - first < fuel → parseNamesFrom s fuel first names = names ++ segments (s.data.drop first)
  | 0, _, _, h => absurd h (Nat.not_lt_zero _)
  | fuel + 1, first, names, h => by
      cases hi : (s.data.drop first).findIdx? (· = '/') with
      | none =>
          simp only [parseNamesFrom, QString.indexOf, hi, ne_eq, not_true_eq_false, if_false,
            mid_neg_one, isEmpty_mk, segments_of_none hi, if_neg (by decide : ¬((-1 : Int) + 1 ≠ 0))]
          split_ifs <;> simp
      | some i =>
          have hil := (List.findIdx?_eq_some_iff_getElem.1 hi).1
          have hlen : s.length = s.data.length := rfl
          simp only [List.length_drop] at hil
          have hne : ((first + i : Nat) : Int) ≠ -1 := by omega
          have hcut : ((first + i : Nat) : Int) - first = i := by omega
          have hnext : (((first + i : Nat) : Int) + 1).toNat = first + i + 1 := by omega
          simp only [parseNamesFrom, QString.indexOf, hi, if_pos hne, hcut, mid_natCast, isEmpty_mk,
            if_pos (by omega : ((first + i : Nat) : Int) + 1 ≠ 0), hnext, segments_of_some hi]
          rw [parseNamesFrom_eq s fuel _ _ (by omega), List.drop_drop, ← Nat.add_assoc]
          split_ifs <;> simp

theorem parseNames_eq_segments (s : String) : parseNames s = segments s.data := by
  rw [parseNames, parseNamesFrom_eq s _ 0 [] (by omega), List.nil_append, List.drop_zero]

/-- Cutting at every separator: the pieces before a separator, then the
pieces after it. -/
theorem splitOnP_append_cons {p : Char → Bool} {sep : Char} (hsep : p sep) (ys : List Char) :
    ∀ xs : List Char, (xs ++ sep :: ys).splitOnP p = xs.splitOnP p ++ ys.splitOnP p
  | [] => by simp [hsep]
  | x :: xs => by
      rw [List.cons_append, List.splitOnP_cons, List.splitOnP_cons, splitOnP_append_cons hsep ys xs]
      split_ifs
      · rfl
      · obtain ⟨r, rs, hr⟩ := List.exists_cons_of_ne_nil (List.splitOnP_ne_nil p xs)
        rw [hr]
        rfl

/-- The names of `p/g` are those of `p`, then those of `g`. -/
theorem parseNames_join (p g : String) : parseNames (p ++ "/" ++ g) = parseNames p ++ parseNames g := by
  have hs : (p ++ "/" ++ g).data = p.data ++ '/' :: g.data := by simp [String.data_append]
  rw [parseNames_eq_segments, parseNames_eq_segments, parseNames_eq_segments, hs, segments, segments,
    segments, splitOnP_append_cons (by decide) g.data p.data, List.filter_append, List.map_append]

/-- Whether the loop of `parseNames`, from `first`, leaves through its
`while (first != 0)` test within `fuel` passes. -/
def parseNamesExits (fullName : String) : Nat → Nat → Bool
  | 0, _ => false
  | fuel + 1, first =>
      let last := QString.indexOf fullName '/' first
      if last + 1 ≠ 0 then parseNamesExits fullName fuel (last + 1).toNat else true

/-- Each pass stops or moves `first` past a `/`: with more passes left
than characters, the loop leaves by its test. -/
theorem parseNamesExits_of_lt (s : String) : ∀ (fuel first : Nat),
    s.length - first < fuel → parseNamesExits s fuel first = true
  | 0, _, h => absurd h (Nat.not_lt_zero _)
  | fuel + 1, first, h => by
      cases hi : (s.data.drop first).findIdx? (· = '/') with
      | none =>
          simp only [parseNamesExits, QString.indexOf, hi,
            if_neg (by decide : ¬((-1 : Int) + 1 ≠ 0))]
      | some i =>
          have hil := (List.findIdx?_eq_some_iff_getElem.1 hi).1
          have hlen : s.length = s.data.length := rfl
          simp only [List.length_drop] at hil
          simp only [parseNamesExits, QString.indexOf, hi,
            if_pos (by omega : ((first + i : Nat) : Int) + 1 ≠ 0)]
          exact parseNamesExits_of_lt s fuel _ (by omega)

theorem splitNames_eq (s : String) : splitNames s = segments s.data := by
  rw [splitNames, String.split_of_valid, segments, List.filter_map]
  congr 2
  funext cs
  simp [String.ext_iff]

theorem intercalate_go_data (sep : String) : ∀ (acc : String) (as : List String),
    (String.intercalate.go acc sep as).data = acc.data ++ (as.map fun a => sep.data ++ a.data).flatten
  | acc, [] => by simp [String.intercalate.go]
  | acc, a :: as => by simp [String.intercalate.go, intercalate_go_data sep _ as]

theorem not_slash_of {l : List Char} (h : '/' ∉ l) : ∀ x ∈ l, ¬decide (x = '/') = true :=
  fun x hx e => h (by rwa [of_decide_eq_true e] at hx)

/-- Cutting `/`-joined names at `/` gives the names back. -/
theorem splitOnP_join : ∀ {a : String} {as : List String}, (∀ x ∈ a :: as, '/' ∉ x.data) →
    (a.data ++ (as.map fun b => ['/'] ++ b.data).flatten).splitOnP (· = '/') = (a :: as).map String.data
  | a, [], h => by
      simpa using List.splitOnP_eq_single _ a.data (not_slash_of (h a (.head _)))
  | a, b :: bs, h => by
      rw [List.map_cons, List.flatten_cons, List.singleton_append, List.cons_append,
        List.splitOnP_first _ _ (not_slash_of (h a (.head _))) _ (by simp), splitOnP_join fun x hx => h x (.tail _ hx)]
      rfl

/-- `parseNames` leaves its loop within `length + 1` passes and answers
the non-empty `/`-separated segments of the path, in order; so it
inverts joining non-empty names without `/` at `/`. -/
theorem parseNames_splits :
    (∀ s : String, parseNamesExits s (s.length + 1) 0 = true ∧ parseNames s = splitNames s) ∧
    ∀ xs : List String, (∀ x ∈ xs, x ≠ "" ∧ '/' ∉ x.data) → parseNames ("/".intercalate xs) = xs := by
  have hsplit : ∀ s, parseNames s = splitNames s := fun s => by
    rw [parseNames_eq_segments, splitNames_eq]
  refine ⟨fun s => ⟨parseNamesExits_of_lt s _ 0 (by omega), hsplit s⟩, fun xs hxs => ?_⟩
  cases xs with
  | nil => rfl
  | cons a as =>
      have hne : ∀ x ∈ a :: as, x.data ≠ [] := fun x hx e => (hxs x hx).1 (String.ext e)
      rw [hsplit, splitNames_eq, String.intercalate, intercalate_go_data, segments,
        splitOnP_join fun x hx => (hxs x hx).2, List.filter_eq_self.2 (by simpa using hne),
        List.map_map]
      exact (List.map_congr_left fun _ _ => rfl).trans (List.map_id _)

theorem parseNames_splits_join : parseNames ("/".intercalate ["user", "name"]) = ["user", "name"] :=
  parseNames_splits.2 _ (by decide)

end QutimConfig
