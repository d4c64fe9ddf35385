/-
Tree values: the `QVariant`s that `ConfigAtom::fromVariant` consumes and
`ConfigAtom::toVariant` produces (config.cpp:72-156), and the ordered
`QMap` both sides of the conversion store their entries in.

# What is kept of `QVariant`

Only what config.cpp distinguishes: an invalid variant (`!isValid()`,
what a Null atom materialises to), a `QVariantList`, a `QVariantMap`,
and everything else as one scalar: a bool, an integer, a `double` or a
`QString`, a null `QString` among them. `QVariant::isNull()` is true of
the invalid variant and of the null string; it is false of every list
and map. A `double` is kept as the decimal it was written as (`Real64`),
so that `QVariant::operator==` (Compare.lean) can compare it with the
other scalars.

# `QMap`

A `QMap<QString, T>` is an association list kept in key order: `insert`
puts a new key at its sorted place and overwrites an existing one, so a
map built by inserts never holds a key twice. Lookup is `List.lookup`.
Keys are ordered as `QString::operator<` orders them, character by
character (`keyLess`, written out so that it evaluates).
-/
import Mathlib.Data.List.Sort

namespace QutimConfig

-- ============================================================ scalars

/-- A `double`: NaN, an infinity (`neg` for the negative one), or the
decimal `m · 10^e`. -/
inductive Real64 where
  | nan
  | inf (neg : Bool)
  | dec (m e : Int)
  deriving DecidableEq, Repr

/-- A scalar `QVariant`: any valid variant that is neither a list nor a
map. `null` is a null `QString`, the scalar whose `isNull()` holds. -/
inductive Scalar where
  | null
  | bool (b : Bool)
  | int (n : Int)
  | double (x : Real64)
  | string (s : String)
  deriving DecidableEq, Repr

/-- `QVariant::isNull()` on a scalar. -/
def Scalar.isNull : Scalar → Bool
  | .null => true
  | _ => false

-- ======================================================= tree values

/-- A tree value: the `QVariant` shapes config.cpp tells apart. -/
inductive Variant where
  | invalid
  | scalar (s : Scalar)
  | list (xs : List Variant)
  | map (m : List (String × Variant))
  deriving Repr

namespace Variant

mutual
/-- Structural equality of two tree values, from which their
`DecidableEq` comes. It is not `QVariant::operator==`, which converts
and compares numbers up to rounding (`Variant.cmp`). -/
def beq : Variant → Variant → Bool
  | .invalid, .invalid => true
  | .scalar a, .scalar b => a == b
  | .list xs, .list ys => beqList xs ys
  | .map m, .map n => beqMap m n
  | _, _ => false
/-- `beq` on lists of values. -/
def beqList : List Variant → List Variant → Bool
  | [], [] => true
  | x :: xs, y :: ys => beq x y && beqList xs ys
  | _, _ => false
/-- `beq` on map entries. -/
def beqMap : List (String × Variant) → List (String × Variant) → Bool
  | [], [] => true
  | (k, x) :: xs, (j, y) :: ys => k == j && beq x y && beqMap xs ys
  | _, _ => false
end

mutual
theorem beq_iff : ∀ a b : Variant, beq a b = true ↔ a = b
  | .invalid, .invalid => by simp [beq]
  | .scalar a, .scalar b => by simp [beq]
  | .list xs, .list ys => by simp [beq, beqList_iff xs ys]
  | .map m, .map n => by simp [beq, beqMap_iff m n]
  | .invalid, .scalar _ | .invalid, .list _ | .invalid, .map _ => by simp [beq]
  | .scalar _, .invalid | .scalar _, .list _ | .scalar _, .map _ => by simp [beq]
  | .list _, .invalid | .list _, .scalar _ | .list _, .map _ => by simp [beq]
  | .map _, .invalid | .map _, .scalar _ | .map _, .list _ => by simp [beq]
theorem beqList_iff : ∀ a b : List Variant, beqList a b = true ↔ a = b
  | [], [] => by simp [beqList]
  | x :: xs, y :: ys => by simp [beqList, beq_iff x y, beqList_iff xs ys]
  | [], _ :: _ | _ :: _, [] => by simp [beqList]
theorem beqMap_iff : ∀ a b : List (String × Variant), beqMap a b = true ↔ a = b
  | [], [] => by simp [beqMap]
  | (k, x) :: xs, (j, y) :: ys => by
      simp [beqMap, beq_iff x y, beqMap_iff xs ys, and_assoc]
  | [], _ :: _ | _ :: _, [] => by simp [beqMap]
end

instance : DecidableEq Variant := fun a b => decidable_of_iff _ (beq_iff a b)

/-- `QVariant::isNull()`. -/
def isNull : Variant → Bool
  | .invalid => true
  | .scalar s => s.isNull
  | .list _ => false
  | .map _ => false

mutual
/-- Number of nodes `ConfigAtom::fromVariant` allocates for a value. -/
def size : Variant → Nat
  | .invalid => 1
  | .scalar _ => 1
  | .list xs => 1 + sizeList xs
  | .map m => 1 + sizeMap m
/-- `size` summed over a list. -/
def sizeList : List Variant → Nat
  | [] => 0
  | x :: xs => size x + sizeList xs
/-- `size` summed over map entries. -/
def sizeMap : List (String × Variant) → Nat
  | [] => 0
  | (_, x) :: xs => size x + sizeMap xs
end

theorem size_pos (v : Variant) : 0 < v.size := by
  cases v <;> simp only [size] <;> omega

end Variant

-- ============================================================== QMap

namespace QMap

variable {α : Type}

/-- `QString::operator<` on the characters of two keys. -/
def keyLessChars : List Char → List Char → Bool
  | [], [] => false
  | [], _ :: _ => true
  | _ :: _, [] => false
  | c :: cs, d :: ds => if c = d then keyLessChars cs ds else c.toNat < d.toNat

/-- `QString::operator<`, the order of `QMap` keys. -/
def keyLess (k j : String) : Bool := keyLessChars k.data j.data

/-- `QMap::insert` / `operator[]` assignment: the key goes to its
sorted place, or overwrites the entry that has it. -/
def insert (k : String) (v : α) : List (String × α) → List (String × α)
  | [] => [(k, v)]
  | (j, w) :: m =>
      if keyLess k j then (k, v) :: (j, w) :: m
      else if k = j then (k, v) :: m
      else (j, w) :: insert k v m

/-- `QMap::remove`: every entry with the key goes. -/
def erase (k : String) (m : List (String × α)) : List (String × α) :=
  m.filter fun p => p.1 != k

/-- `List.lookup` one entry down, as an `if` on the key. -/
@[simp] theorem lookup_cons_eq (k j : String) (w : α) (m : List (String × α)) :
    ((j, w) :: m).lookup k = if k = j then some w else m.lookup k := by
  simp only [List.lookup_cons]; split <;> simp_all

theorem mem_of_lookup {k : String} {v : α} {m : List (String × α)} (h : m.lookup k = some v) :
    (k, v) ∈ m := by
  obtain ⟨l₁, l₂, rfl, -⟩ := List.lookup_eq_some_iff.1 h
  simp

theorem mem_insert {k : String} {v : α} {m : List (String × α)} {p : String × α}
    (h : p ∈ insert k v m) : p = (k, v) ∨ p ∈ m := by
  induction m with
  | nil => simpa [insert] using h
  | cons q m ih =>
      obtain ⟨j, w⟩ := q
      unfold insert at h
      split_ifs at h <;> simp only [List.mem_cons] at h ⊢
      · exact h
      · tauto
      · rcases h with h | h
        · exact .inr (.inl h)
        · rcases ih h with h | h <;> simp [h]

theorem mem_erase {k : String} {m : List (String × α)} {p : String × α} (h : p ∈ erase k m) :
    p ∈ m :=
  (List.mem_filter.1 h).1

@[simp] theorem lookup_insert_self (k : String) (v : α) (m : List (String × α)) :
    (insert k v m).lookup k = some v := by
  induction m with
  | nil => simp [insert]
  | cons p m ih =>
      obtain ⟨j, w⟩ := p
      unfold insert
      split_ifs <;> simp_all

theorem lookup_insert_ne {k k' : String} (v : α) (m : List (String × α))
    (hne : k' ≠ k) : (insert k v m).lookup k' = m.lookup k' := by
  induction m with
  | nil => simp [insert, hne]
  | cons p m ih =>
      obtain ⟨j, w⟩ := p
      unfold insert
      split_ifs <;> simp_all

@[simp] theorem lookup_erase_self (k : String) (m : List (String × α)) :
    (erase k m).lookup k = none := by
  simp only [erase, List.lookup_eq_none_iff, List.mem_filter, bne_iff_ne, ne_eq]
  exact fun p hp => Ne.symm hp.2

theorem lookup_erase_ne {k k' : String} (m : List (String × α)) (hne : k' ≠ k) :
    (erase k m).lookup k' = m.lookup k' := by
  induction m with
  | nil => rfl
  | cons p m ih =>
      obtain ⟨j, w⟩ := p
      simp only [erase, List.filter_cons, bne_iff_ne, ne_eq] at ih ⊢
      split_ifs <;> simp_all

end QMap

end QutimConfig
