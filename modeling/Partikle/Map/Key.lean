import Partikle.Strings
import Mathlib.Data.Nat.Log
import Mathlib.Data.Rat.Defs
import Mathlib.Tactic.NormNum
import Mathlib.Tactic.Ring

/-!
Keys of `Map` and `Set`: normalization, SameValueZero and the hash. Doubles are
given by their bit patterns, because the hash reads the bits.
-/

namespace JsMap

open Strings Option

/-- The value of a `BigFloat` or `BigDecimal`, up to the sign of a zero. -/
inductive BigValue
  | finite (value : ℚ)
  | infinite (negative : Bool)
  | nan
deriving DecidableEq

/-- A `JSValue`, by tag. Objects and symbols are their addresses. -/
inductive JsValue
  | undefined
  | null
  | bool (value : Bool)
  | int (value : BitVec 32)
  | float64 (bits : BitVec 64)
  | string (value : JsString)
  | symbol (address : Nat)
  | object (address : Nat)
  | bigInt (value : Int)
  | bigFloat (value : BigValue)
  | bigDecimal (value : BigValue)
deriving DecidableEq

def isNan (bits : BitVec 64) : Bool := decide (0x7ff0000000000000 < bits.toNat % 2 ^ 63)

def isZero (bits : BitVec 64) : Bool := decide (bits.toNat % 2 ^ 63 = 0)

def floatEq (left right : BitVec 64) : Bool :=
  !isNan left && !isNan right && (left == right || (isZero left && isZero right))

def JS_FLOAT64_NAN : BitVec 64 := 0x7ff8000000000000

def magnitudeBits (magnitude : Nat) : Nat :=
  (1023 + magnitude.log2) * 2 ^ 52 + (magnitude * 2 ^ (52 - magnitude.log2) - 2 ^ 52)

def intToDouble (value : BitVec 32) : BitVec 64 :=
  if value = 0 then 0 else
    BitVec.ofNat 64 ((if value.toInt < 0 then 2 ^ 63 else 0) + magnitudeBits value.toInt.natAbs)

def mapNormalizeKey : JsValue → JsValue
  | .float64 bits => if isZero bits then .int 0 else .float64 bits
  | key => key

/-- `JS_VALUE_GET_NORM_TAG`, as the unsigned number it is mixed into the hash with. -/
def normTag : JsValue → BitVec 32
  | .undefined => 3
  | .null => 2
  | .bool _ => 1
  | .int _ => 0
  | .float64 _ => 7
  | .string _ => BitVec.ofInt 32 (-7)
  | .symbol _ => BitVec.ofInt 32 (-8)
  | .object _ => BitVec.ofInt 32 (-1)
  | .bigInt _ => BitVec.ofInt 32 (-10)
  | .bigFloat _ => BitVec.ofInt 32 (-9)
  | .bigDecimal _ => BitVec.ofInt 32 (-11)

def hashFloat64 (bits : BitVec 64) : BitVec 32 :=
  ((bits.extractLsb' 0 32 ^^^ bits.extractLsb' 32 32) * 3163) ^^^ 7

def mapHashKey (key : JsValue) : BitVec 32 :=
  match key with
  | .bool value => (if value then 1 else 0) ^^^ normTag key
  | .string value => hashString value 0 ^^^ normTag key
  | .object address => (BitVec.ofNat 32 address * 3163) ^^^ normTag key
  | .symbol address => (BitVec.ofNat 32 address * 3163) ^^^ normTag key
  | .int value => hashFloat64 (intToDouble value)
  | .float64 bits => hashFloat64 (if isNan bits then JS_FLOAT64_NAN else bits)
  | _ => 0 ^^^ normTag key

def toDouble : JsValue → Option (BitVec 64)
  | .int value => some (intToDouble value)
  | .float64 bits => some bits
  | _ => none

def sameValueZero : JsValue → JsValue → Bool
  | .undefined, .undefined => true
  | .null, .null => true
  | .bool left, .bool right => left == right
  | .string left, .string right => left.units == right.units
  | .symbol left, .symbol right => left == right
  | .object left, .object right => left == right
  | .bigInt left, .bigInt right => left == right
  | .bigFloat left, .bigFloat right => left == right
  | .bigDecimal left, .bigDecimal right => left == right && left != .nan
  | left, right =>
    match toDouble left, toDouble right with
    | some d1, some d2 => if isNan d1 || isNan d2 then isNan d1 == isNan d2 else floatEq d1 d2
    | _, _ => false

/-- No key in a table is a floating-point zero: `map_normalize_key` made it an int. -/
def Normalized (key : JsValue) : Prop := mapNormalizeKey key = key

theorem mapNormalizeKey_normalized (key : JsValue) : Normalized (mapNormalizeKey key) := by
  unfold Normalized
  cases key with
  | float64 bits =>
    by_cases zero : isZero bits = true
    · simp [mapNormalizeKey, zero]
    · simp [mapNormalizeKey, zero]
  | _ => rfl

theorem magnitudeBits_bounds {magnitude : Nat} (positive : magnitude ≠ 0) (small : magnitude < 2 ^ 53) :
    2 ^ 52 ≤ magnitudeBits magnitude ∧ magnitudeBits magnitude < 1076 * 2 ^ 52 := by
  have exponent : magnitude.log2 < 53 := (Nat.log2_lt positive).mpr small
  have upper : magnitude < 2 ^ (magnitude.log2 + 1) := Nat.lt_log2_self
  have scaled : magnitude * 2 ^ (52 - magnitude.log2) < 2 ^ 53 := by
    have total : 2 ^ (magnitude.log2 + 1) * 2 ^ (52 - magnitude.log2) = 2 ^ 53 := by
      rw [← Nat.pow_add]
      congr 1
      omega
    rw [← total]
    exact Nat.mul_lt_mul_of_pos_right upper (Nat.two_pow_pos _)
  unfold magnitudeBits
  omega

variable {value : BitVec 32} {bits : BitVec 64} {key right left : JsValue}

theorem natAbs_toInt_bounds (nonzero : value ≠ 0) : value.toInt.natAbs ≠ 0 ∧ value.toInt.natAbs < 2 ^ 53 := by
  constructor
  · intro zero
    apply nonzero
    apply BitVec.eq_of_toInt_eq
    simpa using Int.natAbs_eq_zero.mp zero
  · have lower := BitVec.le_toInt value
    have upper := BitVec.toInt_lt (x := value)
    omega

theorem intToDouble_toNat (nonzero : value ≠ 0) :
    2 ^ 52 ≤ (intToDouble value).toNat % 2 ^ 63 ∧ (intToDouble value).toNat % 2 ^ 63 < 1076 * 2 ^ 52 := by
  obtain ⟨positive, small⟩ := natAbs_toInt_bounds nonzero
  have bounds := magnitudeBits_bounds positive small
  simp only [intToDouble, nonzero, ↓reduceIte, BitVec.toNat_ofNat]
  split <;> omega

theorem mapHashKey_of_toDouble (number : toDouble key = some bits) :
    mapHashKey key = hashFloat64 (if isNan bits then JS_FLOAT64_NAN else bits) := by
  cases key with
  | int value =>
    simp only [toDouble, some.injEq] at number
    subst number
    have number : isNan (intToDouble value) = false := by
      rcases eq_or_ne value 0 with rfl | nonzero
      · decide
      · have bounds := intToDouble_toNat nonzero
        simp only [isNan, decide_eq_false_iff_not, not_lt]
        omega
    simp [mapHashKey, number]
  | float64 value =>
    simp only [toDouble, some.injEq] at number
    subst number
    rfl
  | _ => simp [toDouble] at number

theorem zero_bits_of_normalized (normalized : Normalized key)
    (number : toDouble key = some bits) (zero : isZero bits = true) : bits = 0 := by
  cases key with
  | int value =>
    simp only [toDouble, some.injEq] at number
    subst number
    by_cases nonzero : value = 0
    · simp [intToDouble, nonzero]
    · have bounds := intToDouble_toNat nonzero
      simp only [isZero, decide_eq_true_eq] at zero
      omega
  | float64 value =>
    simp only [toDouble, some.injEq] at number
    subst number
    simp [Normalized, mapNormalizeKey, zero] at normalized
  | _ => simp [toDouble] at number

theorem mapHashKey_eq_of_numbers {d1 d2 : BitVec 64} (leftNormal : Normalized left) (rightNormal : Normalized right)
    (leftNumber : toDouble left = some d1) (rightNumber : toDouble right = some d2)
    (same : (if isNan d1 || isNan d2 then isNan d1 == isNan d2 else floatEq d1 d2) = true) :
    mapHashKey left = mapHashKey right := by
  rw [mapHashKey_of_toDouble leftNumber, mapHashKey_of_toDouble rightNumber]
  by_cases nan : isNan d1 = true
  · have other : isNan d2 = true := by simpa [nan] using same
    simp [nan, other]
  · have other : isNan d2 ≠ true := by
      intro second
      simp [nan, second] at same
    simp only [nan, other, Bool.or_self, Bool.false_eq_true, ↓reduceIte, floatEq, Bool.not_false,
      Bool.true_and, Bool.or_eq_true, beq_iff_eq, Bool.and_eq_true] at same
    rcases same with equal | ⟨firstZero, secondZero⟩
    · rw [equal]
    · rw [zero_bits_of_normalized leftNormal leftNumber firstZero,
        zero_bits_of_normalized rightNormal rightNumber secondZero]

theorem mapHashKey_eq_of_same (leftNormal : Normalized left) (rightNormal : Normalized right)
    (same : sameValueZero left right = true) : mapHashKey left = mapHashKey right := by
  cases left <;> cases right <;>
    first
    | exact mapHashKey_eq_of_numbers leftNormal rightNormal rfl rfl same
    | (simp [sameValueZero, toDouble] at same; done)
    | (simp only [sameValueZero, beq_iff_eq, Bool.and_eq_true] at same
       simp [mapHashKey, hashString, normTag, same])

end JsMap
