/-
`QVariant::operator==` on tree values, as Qt 5 (5.7 and later) computes
it: `ConfigAtom::replace` stores a new tree under a name only when the
name is missing or `map[name]->toVariant() != value->toVariant()`
(config.cpp:234-246), so this comparison decides what a write keeps.

# `QVariant::cmp`

The stored variant is compared with the new one (qvariant.cpp):

- two numeric variants (bool, integer, double) compare by the C++
  promotion rules (`numericCompare`): two bools as bools, a double on
  either side as doubles, anything else as integers, a bool counting
  as 0 or 1. Two doubles are equal when equal as numbers or, both finite
  and non-zero, within `qFuzzyCompare`'s relative `1e-12`; NaN equals
  nothing, not even NaN;
- two variants of one type compare with that type's `==`: strings by
  their characters (a null string equals the empty one), lists and maps
  element by element, and two invalid variants are equal;
- otherwise the new variant is converted to the stored one's type
  (`QVariant::convert`) and a failed conversion compares unequal. A
  bool, an integer or a double becomes its text; a string becomes a
  bool unless it is empty, `0` or `false` in any case, and an integer or
  a double only where it reads as one. A list, a map or an invalid
  variant converts to and from nothing of another type.

So `cmp` is not symmetric and not reflexive: a stored `true` equals a
new `"no"`, a stored `"no"` does not equal a new `true`, and a NaN does
not equal itself (`Variant.cmp_self` holds where no NaN is).

# Texts and numbers

A `double` is its decimal (`Real64`), written as
`QString::number(x, 'g', QLocale::FloatingPointShortest)` writes it and
read as `QString::toDouble` reads in the C locale; integers are read as
`QString::toLongLong` reads them. The texts are lists of characters
here, so that every comparison evaluates.
-/
import QutimConfig.Variant

namespace QutimConfig

-- ============================================================ texts

namespace Text

/-- The text without its leading and trailing white space. -/
def trim (cs : List Char) : List Char :=
  ((cs.dropWhile Char.isWhitespace).reverse.dropWhile Char.isWhitespace).reverse

/-- A sign at the head of a text: `-` gives `true`, `+` or none `false`. -/
def readSign : List Char → Bool × List Char
  | '-' :: cs => (true, cs)
  | '+' :: cs => (false, cs)
  | cs => (false, cs)

/-- The decimal digits at the head of a text, accumulated onto `v`:
the number, how many digits were read, and the rest. -/
def readDigits : List Char → Nat → Nat → Nat × Nat × List Char
  | c :: cs, v, n =>
      if c.isDigit then readDigits cs (10 * v + (c.toNat - '0'.toNat)) (n + 1) else (v, n, c :: cs)
  | [], v, n => (v, n, [])

/-- `QString::toLongLong` in the C locale: white space around, a sign,
and at least one digit; `none` for anything else. -/
def toInt (s : String) : Option Int :=
  match readSign (trim s.data) with
  | (neg, r) =>
    match readDigits r 0 0 with
    | (v, n, r) => if 0 < n ∧ r = [] then some (if neg then -(v : Int) else v) else none

/-- The bool a string converts to (`qt_convertToBool`): false for the
empty string, `0` and `false` in any case. -/
def toBool (s : String) : Bool :=
  let t := s.data.map Char.toLower
  !(t = [] || t = ['0'] || t = ['f', 'a', 'l', 's', 'e'])

end Text

-- ========================================================== doubles

namespace Real64

/-- Two decimals brought to their smaller exponent, as integers. -/
def scale (m e n f : Int) : Int × Int :=
  if e ≤ f then (m, n * Int.ofNat (Nat.pow 10 (f - e).toNat))
  else (m * Int.ofNat (Nat.pow 10 (e - f).toNat), n)

/-- `numericCompare(…) == 0` on two doubles: equal as numbers, or both
finite and non-zero and `qFuzzyCompare`-equal,
`|a - b| · 10^12 ≤ min |a| |b|`. NaN equals nothing. -/
def eq : Real64 → Real64 → Bool
  | .inf s, .inf t => s == t
  | .dec m e, .dec n f =>
      match scale m e n f with
      | (a, b) =>
        a == b || (a != 0 && b != 0 && (a - b).natAbs * Nat.pow 10 12 ≤ Nat.min a.natAbs b.natAbs)
  | _, _ => false

/-- A digit string without its trailing zeros, and how many went. -/
def stripZeros (ds : List Char) : List Char × Nat :=
  let kept := (ds.reverse.dropWhile (· = '0')).reverse
  (kept, ds.length - kept.length)

/-- Whether the shortest `'g'` form (`QLocaleData::doubleToString`) of
`n` digits with the point after `decpt` of them writes an exponent:
below `1e-4`, or where the exponent form is the shorter. -/
def useExponent (n : Nat) (decpt : Int) : Bool :=
  let cutoff : Int := if 0 < decpt then n + 4 + (if decpt ≤ 10 then 1 else 2) else 6
  decpt - 1 < -4 || cutoff ≤ decpt - 1

/-- `exponentForm`: the first digit, the others after a point, then the
exponent with its sign and at least two digits. -/
def exponentForm (ds : List Char) (decpt : Int) : List Char :=
  let x := Nat.toDigits 10 (decpt - 1).natAbs
  ds.take 1 ++ (if 1 < ds.length then '.' :: ds.drop 1 else []) ++
    'e' :: (if decpt - 1 < 0 then '-' else '+') :: (List.replicate (2 - x.length) '0' ++ x)

/-- `decimalForm`: the digits with the point after `decpt` of them,
padded with zeros on the side the point falls. -/
def decimalForm (ds : List Char) (decpt : Int) : List Char :=
  if decpt ≤ 0 then '0' :: '.' :: (List.replicate (-decpt).toNat '0' ++ ds)
  else if ds.length ≤ decpt.toNat then ds ++ List.replicate (decpt.toNat - ds.length) '0'
  else ds.take decpt.toNat ++ '.' :: ds.drop decpt.toNat

/-- `QString::number(x, 'g', QLocale::FloatingPointShortest)`: `nan`,
`inf`, `-inf`, `0`, or the digits of the decimal in the shorter of the
decimal and the exponent form. -/
def toText : Real64 → String
  | .nan => "nan"
  | .inf neg => if neg then "-inf" else "inf"
  | .dec m e =>
      if m = 0 then "0"
      else
        match stripZeros (Nat.toDigits 10 m.natAbs) with
        | (ds, z) =>
          let decpt : Int := ds.length + z + e
          String.mk ((if m < 0 then ['-'] else []) ++
            if useExponent ds.length decpt then exponentForm ds decpt else decimalForm ds decpt)

/-- Digits, a point and more digits: the number they spell, how many
digits, how many after the point, and the rest. -/
def readNumber (r : List Char) : Nat × Nat × Nat × List Char :=
  match Text.readDigits r 0 0 with
  | (i, ni, '.' :: r) =>
    match Text.readDigits r i 0 with
    | (m, nf, r) => (m, ni + nf, nf, r)
  | (i, ni, r) => (i, ni, 0, r)

/-- The decimal after the sign: digits with at most one point, at least
one digit, and an optional exponent. -/
def ofDigits (neg : Bool) (r : List Char) : Option Real64 :=
  match readNumber r with
  | (m, n, k, r) =>
    if n = 0 then none
    else
      match r with
      | [] => some (.dec (if neg then -(m : Int) else m) (-(k : Int)))
      | 'e' :: r =>
        match Text.readSign r with
        | (eneg, r) =>
          match Text.readDigits r 0 0 with
          | (x, nx, r) =>
            if 0 < nx ∧ r = [] then
              some (.dec (if neg then -(m : Int) else m) ((if eneg then -(x : Int) else x) - k))
            else none
      | _ => none

/-- `QString::toDouble` in the C locale: white space around and ASCII
letters in any case; `nan`, `inf`, `+inf`, `-inf`, or a signed decimal. -/
def parse (s : String) : Option Real64 :=
  match (Text.trim s.data).map Char.toLower with
  | ['n', 'a', 'n'] => some .nan
  | ['i', 'n', 'f'] | ['+', 'i', 'n', 'f'] => some (.inf false)
  | ['-', 'i', 'n', 'f'] => some (.inf true)
  | cs => match Text.readSign cs with
    | (neg, r) => ofDigits neg r

theorem eq_self {x : Real64} (h : x ≠ .nan) : x.eq x = true := by
  cases x with
  | nan => exact absurd rfl h
  | inf s => simp [eq]
  | dec m e => simp [eq, scale]

end Real64

-- ========================================================== scalars

namespace Scalar

/-- `qIsNumericType`: bools, integers and doubles. -/
def isNumeric : Scalar → Bool
  | .bool _ | .int _ | .double _ => true
  | _ => false

/-- A numeric variant as a double (`qConvertToRealNumber`). -/
def toReal64 : Scalar → Real64
  | .bool b => .dec (if b then 1 else 0) 0
  | .int n => .dec n 0
  | .double x => x
  | _ => .nan

/-- A bool or an integer variant as an integer (`qConvertToNumber`). -/
def toInt : Scalar → Int
  | .bool b => if b then 1 else 0
  | .int n => n
  | _ => 0

/-- `numericCompare(d1, d2) == 0`: two bools as bools, a double on
either side as doubles, anything else as integers. -/
def numericEq (a b : Scalar) : Bool :=
  match a, b with
  | .bool x, .bool y => x == y
  | .double _, _ | _, .double _ => a.toReal64.eq b.toReal64
  | _, _ => a.toInt == b.toInt

/-- A scalar converted to a `QString`: a string keeps its characters, the
null string is empty, a bool is `true` or `false`, a number its text. -/
def toText : Scalar → String
  | .null => ""
  | .string s => s
  | .bool b => if b then "true" else "false"
  | .int n => toString n
  | .double x => x.toText

/-- A string converted to the type of the numeric variant `a`, `none`
where the conversion fails. -/
def convertText (a : Scalar) (s : String) : Option Scalar :=
  match a with
  | .bool _ => some (.bool (Text.toBool s))
  | .int _ => (Text.toInt s).map .int
  | .double _ => (Real64.parse s).map .double
  | _ => some (.string s)

/-- `QVariant::cmp` on scalars, the stored `a` against the new `b`: two
numbers by `numericEq`; a string against a number converted to the
number's type, unequal where that fails; otherwise as texts. -/
def cmp (a b : Scalar) : Bool :=
  if a.isNumeric then
    if b.isNumeric then numericEq a b
    else match convertText a b.toText with
      | some b' => numericEq a b'
      | none => false
  else a.toText == b.toText

theorem cmp_self {s : Scalar} (h : s ≠ .double .nan) : s.cmp s = true := by
  cases s with
  | double x =>
      simpa [cmp, isNumeric, numericEq, toReal64] using
        Real64.eq_self fun hx => h (congrArg Scalar.double hx)
  | _ => simp [cmp, isNumeric, numericEq, toInt]

end Scalar

-- =========================================================== values

namespace Variant

mutual
/-- `QVariant::cmp`, the `==` behind `ConfigAtom::replace`'s `!=`: the
stored `a` against the new `b`. -/
def cmp : Variant → Variant → Bool
  | .invalid, .invalid => true
  | .scalar a, .scalar b => a.cmp b
  | .list xs, .list ys => cmpList xs ys
  | .map m, .map n => cmpMap m n
  | _, _ => false
/-- `QList<QVariant>::operator==`: as long, and equal element by element. -/
def cmpList : List Variant → List Variant → Bool
  | [], [] => true
  | x :: xs, y :: ys => cmp x y && cmpList xs ys
  | _, _ => false
/-- `QMap<QString, QVariant>::operator==`: the same keys in order, and
equal values. -/
def cmpMap : List (String × Variant) → List (String × Variant) → Bool
  | [], [] => true
  | (k, x) :: xs, (j, y) :: ys => k == j && cmp x y && cmpMap xs ys
  | _, _ => false
end

mutual
/-- Whether a NaN double sits anywhere in the value. -/
def hasNaN : Variant → Bool
  | .scalar s => s == .double .nan
  | .list xs => hasNaNList xs
  | .map m => hasNaNMap m
  | .invalid => false
/-- `hasNaN` of some element. -/
def hasNaNList : List Variant → Bool
  | [] => false
  | x :: xs => hasNaN x || hasNaNList xs
/-- `hasNaN` of some value of a map. -/
def hasNaNMap : List (String × Variant) → Bool
  | [] => false
  | (_, x) :: m => hasNaN x || hasNaNMap m
end

mutual
/-- A value with no NaN is equal to itself. -/
theorem cmp_self : ∀ v : Variant, v.hasNaN = false → v.cmp v = true
  | .invalid, _ => rfl
  | .scalar s, h => Scalar.cmp_self (by simpa [hasNaN] using h)
  | .list xs, h => cmpList_self xs (by simpa [hasNaN] using h)
  | .map m, h => cmpMap_self m (by simpa [hasNaN] using h)
theorem cmpList_self : ∀ xs : List Variant, hasNaNList xs = false → cmpList xs xs = true
  | [], _ => rfl
  | x :: xs, h => by
      simp only [hasNaNList, Bool.or_eq_false_iff] at h
      simp [cmpList, cmp_self x h.1, cmpList_self xs h.2]
theorem cmpMap_self : ∀ m : List (String × Variant), hasNaNMap m = false → cmpMap m m = true
  | [], _ => rfl
  | (k, x) :: m, h => by
      simp only [hasNaNMap, Bool.or_eq_false_iff] at h
      simp [cmpMap, cmp_self x h.1, cmpMap_self m h.2]
end

/-- What `ConfigAtom::replace` leaves under a name given the tree `old`
that was there, if any, and the new tree `v`: the old tree where
`QVariant::cmp` finds it equal to the new one, else the new one. -/
def kept : Option Variant → Variant → Variant
  | some o, v => if o.cmp v then o else v
  | none, v => v

end Variant

end QutimConfig
