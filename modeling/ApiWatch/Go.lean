import Mathlib.Data.List.Basic
import Mathlib.Tactic.Ring

/-!
# Go primitives under the catalog

The catalog's arguments lean on four pieces of Go behaviour: the wrapping `int64`
version counter, `strconv.FormatInt(·, 10)` that turns it into the version string a
client hands back to `Watch`, `strings.Split` on `/`, and the unspecified order of a
`range` loop over a map.  Each is modelled at the level the catalog uses it.

The decimal rendering is Lean's own `Nat.repr`, which writes the same digits as Go.  Its
injectivity, which the version check needs, is proved through the value the digits spell.
The order of a map loop is data: a `RangeOrder` may pick any permutation at every loop
site, so a theorem quantified over all of them holds whatever order the runtime picks.
-/

namespace ApiWatch.Go

/-- A Go `int64`. -/
@[ext]
structure Int64 where
  toInt : Int
  ge_min : -9223372036854775808 ≤ toInt
  lt_bound : toInt < 9223372036854775808
deriving DecidableEq

namespace Int64

/-- `math.MaxInt64`. -/
def maxValue : Int := 9223372036854775807

/-- Two's-complement wrap of an integer into `int64`. -/
def wrap (value : Int) : Int64 where
  toInt := (value + 9223372036854775808) % 18446744073709551616 - 9223372036854775808
  ge_min := by omega
  lt_bound := by omega

/-- The `int64` constant `1`. -/
def one : Int64 := ⟨1, by decide, by decide⟩

/-- `value + 1` on `int64`: past `math.MaxInt64` it wraps to `math.MinInt64`. -/
def succ (value : Int64) : Int64 := wrap (value.toInt + 1)

/-- `left * right` on `int64`, wrapping. -/
def mul (left right : Int64) : Int64 := wrap (left.toInt * right.toInt)

@[simp]
theorem one_toInt : one.toInt = 1 := rfl

theorem wrap_toInt {value : Int} (low : -9223372036854775808 ≤ value)
    (high : value < 9223372036854775808) : (wrap value).toInt = value := by
  simp only [wrap]
  omega

/-- A value up to one `2^64` past the range wraps once, down by `2^64`. -/
theorem wrap_toInt_sub {value : Int} (low : 9223372036854775808 ≤ value)
    (high : value < 27670116110564327424) : (wrap value).toInt = value - 18446744073709551616 := by
  simp only [wrap]
  omega

/-- Below `math.MaxInt64` the increment does not wrap. -/
theorem succ_toInt {value : Int64} (below : value.toInt < maxValue) :
    value.succ.toInt = value.toInt + 1 :=
  wrap_toInt (by have := value.ge_min; omega) (by simp only [maxValue] at below; omega)

end Int64

/-! ## `strconv.FormatInt(value, 10)` -/

/-- The number a run of decimal digit characters spells. -/
def decimalValue (digits : List Char) : Nat :=
  digits.foldl (fun acc digit => 10 * acc + (digit.toNat - 48)) 0

theorem foldl_decimal (acc : Nat) (digits : List Char) :
    digits.foldl (fun acc digit => 10 * acc + (digit.toNat - 48)) acc =
      acc * 10 ^ digits.length + decimalValue digits := by
  induction digits generalizing acc with
  | nil => simp [decimalValue]
  | cons digit rest ih =>
    simp only [decimalValue, List.foldl_cons, List.length_cons] at *
    rw [ih, ih (10 * 0 + _)]
    ring

theorem decimalValue_cons (digit : Char) (rest : List Char) :
    decimalValue (digit :: rest) =
      (digit.toNat - 48) * 10 ^ rest.length + decimalValue rest := by
  rw [decimalValue, List.foldl_cons, Nat.mul_zero, Nat.zero_add, foldl_decimal]

theorem digitChar_value {digit : Nat} (small : digit < 10) :
    (Nat.digitChar digit).toNat - 48 = digit := by
  have table : ∀ d : Fin 10, (Nat.digitChar d).toNat - 48 = d := by decide
  exact table ⟨digit, small⟩

theorem digitChar_isDigit {digit : Nat} (small : digit < 10) :
    (Nat.digitChar digit).isDigit = true := by
  have table : ∀ d : Fin 10, (Nat.digitChar d).isDigit = true := by decide
  exact table ⟨digit, small⟩

theorem toDigitsCore_succ (fuel value : Nat) (digits : List Char) :
    Nat.toDigitsCore 10 (fuel + 1) value digits =
      if value / 10 = 0 then Nat.digitChar (value % 10) :: digits
      else Nat.toDigitsCore 10 fuel (value / 10) (Nat.digitChar (value % 10) :: digits) :=
  rfl

/-- The digits `Nat.toDigitsCore` prepends spell the number it was given. -/
theorem decimalValue_toDigitsCore (fuel value : Nat) (digits : List Char)
    (enough : value < fuel) :
    decimalValue (Nat.toDigitsCore 10 fuel value digits) =
      value * 10 ^ digits.length + decimalValue digits := by
  induction fuel generalizing value digits with
  | zero => omega
  | succ fuel ih =>
    have low := digitChar_value (Nat.mod_lt value (by decide : 10 > 0))
    have split := Nat.div_add_mod value 10
    rw [toDigitsCore_succ]
    split_ifs with last
    · rw [decimalValue_cons, low, show value % 10 = value by omega]
    · rw [ih _ _ (by omega), decimalValue_cons, low, List.length_cons, pow_succ]
      calc value / 10 * (10 ^ digits.length * 10) +
            (value % 10 * 10 ^ digits.length + decimalValue digits)
          = (10 * (value / 10) + value % 10) * 10 ^ digits.length + decimalValue digits := by
            ring
        _ = value * 10 ^ digits.length + decimalValue digits := by rw [split]

theorem decimalValue_toDigits (value : Nat) :
    decimalValue (Nat.toDigits 10 value) = value := by
  simpa using decimalValue_toDigitsCore (value + 1) value [] (by omega)

theorem toDigitsCore_isDigit (fuel value : Nat) (digits : List Char)
    (given : ∀ c ∈ digits, c.isDigit = true) :
    ∀ c ∈ Nat.toDigitsCore 10 fuel value digits, c.isDigit = true := by
  induction fuel generalizing value digits with
  | zero => exact given
  | succ fuel ih =>
    have head := digitChar_isDigit (Nat.mod_lt value (by decide : 10 > 0))
    rw [toDigitsCore_succ]
    split_ifs
    · simpa [head] using given
    · exact ih _ _ (by simpa [head] using given)

theorem minus_not_mem_toDigits (value : Nat) : '-' ∉ Nat.toDigits 10 value := fun mem =>
  absurd (toDigitsCore_isDigit _ value [] (by simp) '-' mem) (by decide)

/-- `strconv.FormatInt(value, 10)`: a `-` for a negative value, then the decimal digits
of its magnitude. -/
def formatInt (value : Int64) : String :=
  if value.toInt < 0 then "-" ++ Nat.repr value.toInt.natAbs else Nat.repr value.toInt.natAbs

theorem repr_data (value : Nat) : (Nat.repr value).data = Nat.toDigits 10 value := rfl

theorem repr_injective {left right : Nat} (same : Nat.repr left = Nat.repr right) :
    left = right := by
  have digits := congrArg String.data same
  rw [repr_data, repr_data] at digits
  rw [← decimalValue_toDigits left, digits, decimalValue_toDigits]

theorem minus_append_ne_repr (magnitude other : Nat) :
    "-" ++ Nat.repr magnitude ≠ Nat.repr other := fun same =>
  minus_not_mem_toDigits other (by
    have data := congrArg String.data same
    rw [String.data_append, repr_data, repr_data] at data
    rw [← data]
    exact List.mem_append_left _ (List.mem_singleton_self _))

theorem minus_append_cancel {left right : Nat}
    (same : "-" ++ Nat.repr left = "-" ++ Nat.repr right) : left = right :=
  repr_injective (String.ext (List.append_cancel_left (congrArg String.data same)))

/-- Two counter values give the same version string only when they are equal. -/
theorem formatInt_injective : Function.Injective formatInt := by
  rintro ⟨left, _, _⟩ ⟨right, _, _⟩ same
  simp only [formatInt] at same
  simp only [Int64.mk.injEq]
  split_ifs at same
  · have := minus_append_cancel same
    omega
  · exact absurd same (minus_append_ne_repr _ _)
  · exact absurd same.symm (minus_append_ne_repr _ _)
  · have := repr_injective same
    omega

/-! ## `strings.Split` and map iteration -/

/-- `strings.Split(text, string(separator))` for a one-character separator. -/
def split (text : String) (separator : Char) : List String :=
  (text.toList.splitOn separator).map String.mk

/-- `strings.Split` never returns an empty slice, so indexing its first element is safe. -/
theorem split_ne_nil (text : String) (separator : Char) : split text separator ≠ [] := by
  simp [split, List.splitOn, List.splitOnP_ne_nil]

/-- No part `strings.Split` returns holds the separator. -/
theorem split_parts_free (text : String) (separator : Char) :
    ∀ part ∈ split text separator, separator ∉ part.toList := by
  have parts : ∀ chars : List Char, ∀ part ∈ chars.splitOn separator, separator ∉ part := by
    intro chars
    induction chars with
    | nil => simp
    | cons c rest ih =>
      simp only [List.splitOn, List.splitOnP_cons] at ih ⊢
      split_ifs with here
      · simpa using ih
      · obtain ⟨first, more, parted⟩ :=
          List.exists_cons_of_ne_nil (List.splitOnP_ne_nil (· == separator) rest)
        rw [parted] at ih ⊢
        simp only [List.modifyHead_cons, List.mem_cons, forall_eq_or_imp] at ih ⊢
        refine ⟨?_, ih.2⟩
        rintro (same | inFirst)
        · exact here (by simp [same])
        · exact ih.1 inFirst
  intro part mem
  obtain ⟨chars, inSplit, rfl⟩ := List.mem_map.1 mem
  exact parts text.toList chars inSplit

/--
The order in which one `for ... range` loop over a Go map visits the entries.  Go leaves
it unspecified and varies it between runs, so the model takes it as data: at each loop
site it may be any permutation of the entries, chosen independently of every other site.
-/
structure RangeOrder (Site : Type) where
  visit : {α : Type} → Site → List α → List α
  visit_perm :
    ∀ {α : Type} (site : Site) (entries : List α), List.Perm (visit site entries) entries

/-- The loop that visits entries in the order the model stores them. -/
def RangeOrder.stored {Site : Type} : RangeOrder Site :=
  ⟨fun _ entries => entries, fun _ _ => List.Perm.refl _⟩

/-- The loop that visits entries in the reverse of the order the model stores them. -/
def RangeOrder.reversed {Site : Type} : RangeOrder Site :=
  ⟨fun _ entries => entries.reverse, fun _ entries => List.reverse_perm entries⟩

end ApiWatch.Go
