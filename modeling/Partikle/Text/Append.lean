import Partikle.Text.CString

/-!
Buffers that grow with what is appended to them. Whatever the sequence of appends, a buffer
holds all of it as long as that is not longer than a string can be, and fails otherwise.
-/

namespace Text

open Strings Wrap List

variable (mem : Memory)

namespace StringBuffer

def write16 (s : StringBuffer) (p : Utf16) : Option StringBuffer :=
  s.reserve mem (p.foldl (fun c unit => c ||| unit.toNat) 0) p

def concat (s : StringBuffer) (str : JsString) : Option StringBuffer :=
  if str.units = [] then some s
  else if str.isWideChar then s.write16 mem str.units
  else s.write8 mem (str.units.map BitVec.toNat)

def concatValue (s : StringBuffer) (str : JsString) : Option StringBuffer :=
  if s.errorStatus.isSome then some s else s.concat mem str

end StringBuffer

def isWide (units : Utf16) : Bool := units.any fun unit => 0x100 ≤ unit.toNat

structure StringBuffer.Open (s : StringBuffer) (units : Utf16) : Prop where
  room : ∃ size < 2 ^ 30, s.Holds size units 0
  wide : s.isWideChar = isWide units

def StringBuffer.Given (s : StringBuffer) (units : Utf16) : Prop :=
  if units.length ≤ 2 ^ 30 - 1 then s.Open units else s.Failed

def unitsOf (c : Nat) : Utf16 :=
  if 0x10000 ≤ c then [.ofNat 16 (getHiSurrogate c), .ofNat 16 (getLoSurrogate c)] else [.ofNat 16 c]

variable {n : Nat} {str : JsString}

namespace StringBuffer

variable {s : StringBuffer} {size k c : Nat} {units more : Utf16}

theorem Holds.weaken (holds : s.Holds size units n) : s.Holds size units 0 :=
  { holds with room := by have := holds.room; omega }

theorem jsAllocString_of_lt (wide : Bool) (short : size < 2 ^ 30) :
    jsAllocString mem size wide = some (sizeofJsString + if wide then 2 * size else size + 1) := by
  cases wide with
  | false => exact init_block mem (by omega)
  | true =>
    have granted := allocate_wide mem short
    simpa [jsAllocString] using granted

theorem realloc_holds (holds : s.Holds size units 0) (full : size < units.length + k)
    (fits : units.length + k ≤ 2 ^ 30 - 1) (c : Nat) :
    ∃ s' size', s.realloc mem (s.len + k) c = some s' ∧ size' < 2 ^ 30 ∧ s'.Holds size' units k ∧
      s'.isWideChar = (s.isWideChar || decide (0x100 ≤ c)) := by
  have contents := holds.contents
  obtain ⟨size', newSize, low, high⟩ : ∃ size' : Nat,
      min (max ((s.len : Int) + k) ((int32 (s.size * 3)).tdiv 2)) jsStringLenMax = size' ∧
        units.length + k ≤ size' ∧ size' < 2 ^ 30 := by
    refine ⟨(min (max ((s.len : Int) + k) ((int32 (s.size * 3)).tdiv 2)) jsStringLenMax).toNat, ?_, ?_, ?_⟩
    all_goals
      rw [len, contents, jsStringLenMax]
      omega
  have short : ¬(s.len : Int) + k > jsStringLenMax := by
    rw [len, contents, jsStringLenMax]
    omega
  unfold realloc
  rw [holds.good]
  simp only [if_neg short, newSize]
  by_cases widens : ¬s.isWideChar = true ∧ 0x100 ≤ c
  · rw [if_pos widens]
    obtain ⟨s', spread, holds', wide⟩ := widen_holds mem contents holds.good low high
    exact ⟨s', size', spread, high, holds', by simp [wide, widens.2]⟩
  · rw [if_neg widens, jsAllocString_of_lt mem s.isWideChar high]
    have least : min (size' : Int) jsStringLenMax = size' := by omega
    refine ⟨_, size', rfl, high, ⟨contents, least, rfl, rfl, low, by omega⟩, ?_⟩
    cases wide : s.isWideChar with
    | true => rfl
    | false => simpa [wide] using widens

theorem realloc_fails (holds : s.Holds size units 0) (long : 2 ^ 30 - 1 < units.length + k) (c : Nat) :
    ∃ s', s.realloc mem (s.len + k) c = some s' ∧ s'.Failed := by
  have beyond : (s.len : Int) + k > jsStringLenMax := by
    rw [len, holds.contents, jsStringLenMax]
    omega
  unfold realloc
  rw [holds.good]
  simp only [if_pos beyond]
  exact ⟨_, rfl, rfl, rfl, rfl⟩

theorem isWide_append (units more : Utf16) : isWide (units ++ more) = (isWide units || isWide more) :=
  any_append

/-- An append works on every buffer if it works on an open one with room for it, fails on an
open one without, and leaves a failed one alone. -/
theorem Given.append {result : Option StringBuffer} (given : s.Given units)
    (works : s.Open units → units.length + more.length ≤ 2 ^ 30 - 1 → ∃ s', result = some s' ∧ s'.Open (units ++ more))
    (fails : s.Open units → 2 ^ 30 - 1 < units.length + more.length → ∃ s', result = some s' ∧ s'.Failed)
    (failed : s.Failed → result = some s) : ∃ s', result = some s' ∧ s'.Given (units ++ more) := by
  unfold Given at given ⊢
  rw [length_append]
  by_cases fits : units.length + more.length ≤ 2 ^ 30 - 1
  · rw [if_pos (by omega)] at given
    simp only [if_pos fits]
    exact works given fits
  · simp only [if_neg fits]
    split at given
    · exact fails given (by omega)
    · exact ⟨s, failed given, given⟩

theorem len_eq (holds : s.Holds size units k) : s.len = units.length := by rw [len, holds.contents]

theorem isWide_singleton (small : c < 0x10000) : isWide [.ofNat 16 c] = decide (0x100 ≤ c) := by
  simp [isWide, Nat.mod_eq_of_lt small]

theorem reserve_given (given : s.Given units) (high : isWide more = decide (0x100 ≤ c))
    (small : s.len + more.length < 2 ^ 31) : ∃ s', s.reserve mem c more = some s' ∧ s'.Given (units ++ more) := by
  have newLen := newLen_eq small
  apply given.append
  · rintro ⟨⟨size, short, holds⟩, wide⟩ fits
    have wide' : isWide (units ++ more) = (s.isWideChar || decide (0x100 ≤ c)) := by
      rw [isWide_append, high, wide]
    have length := len_eq holds
    have capacity := holds.capacity
    by_cases full : (s.len : Int) + more.length > s.size
    · obtain ⟨s', size', grown, short', holds', wide''⟩ := realloc_holds mem holds (by omega) fits c
      simp only [reserve, newLen]
      obtain ⟨s'', stored, holds'', same⟩ := stored_holds (n := 0) (by rwa [Nat.zero_add])
      rw [if_pos full, grown]
      exact ⟨s'', stored, ⟨size', short', holds''⟩, by rw [same, wide', wide'']⟩
    · have room : units.length + (0 + more.length) ≤ size := by omega
      obtain ⟨s', put, holds', is⟩ := reserve_holds mem (c := c) { holds with room } (.inr (.inr short))
      exact ⟨s', put, ⟨size, short, holds'⟩, is.trans wide'.symm⟩
  · rintro ⟨⟨size, short, holds⟩, -⟩ long
    have length := len_eq holds
    have capacity := holds.capacity
    obtain ⟨s', grown, failed⟩ := realloc_fails mem holds long c
    refine ⟨s', ?_, failed⟩
    simp only [reserve, newLen]
    rw [if_pos (by omega), grown]
    simp [failed.2.2]
  · exact fun failed => reserve_failed mem failed c more

/-- A buffer made for more code units than a string can have: 8 bit code units up to that number
are in it, or it has failed. -/
def Loose (s : StringBuffer) (units : Utf16) : Prop :=
  s.Failed ∨ s.isWideChar = false ∧ isWide units = false ∧
    ∃ size, 2 ^ 30 ≤ size ∧ size ≤ 2 ^ 30 + 1 ∧ s.Holds size units 0

theorem reserve_loose (loose : s.Loose units) (high : isWide more = decide (0x100 ≤ c))
    (small : s.len + more.length < 2 ^ 31) : ∃ s', s.reserve mem c more = some s' ∧ s'.Loose (units ++ more) := by
  have newLen := newLen_eq small
  rcases loose with failed | ⟨narrow, low, size, large, limit, holds⟩
  · exact ⟨s, reserve_failed mem failed c more, .inl failed⟩
  have length := len_eq holds
  have capacity := holds.capacity
  by_cases full : (s.len : Int) + more.length > s.size
  · obtain ⟨s', grown, failed⟩ := realloc_fails mem holds (k := more.length) (by omega) c
    simp only [reserve, newLen]
    rw [if_pos full, grown]
    exact ⟨s', by simp [failed.2.2], .inl failed⟩
  by_cases wide : 0x100 ≤ c
  · have refused := (widen_long mem holds.good large holds.small).resolve_right (by omega)
    simp only [reserve, newLen]
    rw [if_neg full, if_pos ⟨by simp [narrow], wide⟩, capacity, refused]
    exact ⟨_, rfl, .inl ⟨rfl, rfl, rfl⟩⟩
  · have room : units.length + (0 + more.length) ≤ size := by omega
    obtain ⟨s', put, holds', same⟩ := reserve_holds mem { holds with room } (.inr (.inl (not_le.mp wide)))
    refine ⟨s', put, .inr ⟨?_, ?_, size, large, limit, holds'⟩⟩
    · simp [same, narrow, wide]
    · simp [isWide_append, low, high, wide]

variable {P : StringBuffer → Utf16 → Prop}

/-- What is said of a buffer and of what it has been given stays true when it is given more. -/
structure Tracks (P : StringBuffer → Utf16 → Prop) : Prop where
  reserve : ∀ {s units c more}, P s units → isWide more = decide (0x100 ≤ c) →
    s.len + more.length < 2 ^ 31 → ∃ s', s.reserve mem c more = some s' ∧ P s' (units ++ more)
  len : ∀ {s units}, P s units → s.len ≤ 2 ^ 30 + 1
  short : ∀ {s units}, P s units → s.len ≤ units.length
  full : ∀ {s units}, P s units → s.errorStatus.isSome = true → s.size ≤ s.len
  stuck : ∀ {s units}, P s units → s.errorStatus.isSome = true → ∀ more, P s (units ++ more)

section Appends

variable (tracks : Tracks mem P)

include tracks

theorem putc16_tracks (held : P s units) (small : c < 0x10000) :
    ∃ s', s.putc16 mem c = some s' ∧ P s' (units ++ [.ofNat 16 c]) := by
  have len := tracks.len held
  rw [putc16_eq mem (tracks.full held) (by omega)]
  exact tracks.reserve held (isWide_singleton small) (by rw [length_singleton]; omega)

theorem putc8_tracks (held : P s units) (small : c < 0x100) :
    ∃ s', s.putc8 mem c = some s' ∧ P s' (units ++ [.ofNat 16 c]) := by
  have len := tracks.len held
  rw [putc8_eq mem small (by omega)]
  exact tracks.reserve held (isWide_singleton (by omega)) (by rw [length_singleton]; omega)

theorem write8_tracks {p : List Nat} (held : P s units) (small : ∀ b ∈ p, b < 0x100)
    (short : s.len + p.length < 2 ^ 31) : ∃ s', s.write8 mem p = some s' ∧ P s' (units ++ p.map (.ofNat 16)) := by
  rw [write8_eq]
  refine tracks.reserve held ?_ (by simpa using short)
  simp only [isWide, any_map]
  rw [any_eq_false.mpr]
  · rfl
  · intro b there
    have low := small b there
    simp only [Function.comp, BitVec.toNat_ofNat, Nat.mod_eq_of_lt (show b < 2 ^ 16 by omega)]
    simpa using low

theorem putc_tracks (held : P s units) (range : c ≤ 0x10FFFF) :
    ∃ s', s.putc mem c = some s' ∧ P s' (units ++ unitsOf c) := by
  unfold putc unitsOf
  split
  · have hi : getHiSurrogate c < 0x10000 := by
      rw [getHiSurrogate_eq]
      omega
    have lo : getLoSurrogate c < 0x10000 := by
      rw [getLoSurrogate_eq]
      omega
    obtain ⟨s', put, held'⟩ := putc16_tracks mem tracks held hi
    rw [put]
    simp only [Option.bind_eq_bind, Option.bind_some]
    split
    · next error =>
        have more := tracks.stuck held' error [.ofNat 16 (getLoSurrogate c)]
        exact ⟨s', rfl, by simpa using more⟩
    · obtain ⟨s'', put', held''⟩ := putc16_tracks mem tracks held' lo
      exact ⟨s'', put', by simpa using held''⟩
  · exact putc16_tracks mem tracks held (by omega)

end Appends

theorem le_or_iff (a b : Nat) : 0x100 ≤ a ||| b ↔ 0x100 ≤ a ∨ 0x100 ≤ b := by
  constructor
  · intro high
    by_contra low
    have small : a ||| b < 2 ^ 8 := Nat.or_lt_two_pow (by omega) (by omega)
    omega
  · rintro (high | high)
    · exact high.trans Nat.left_le_or
    · exact high.trans Nat.right_le_or

theorem le_foldl_or (p : Utf16) (c : Nat) :
    0x100 ≤ p.foldl (fun c unit => c ||| unit.toNat) c ↔ 0x100 ≤ c ∨ ∃ unit ∈ p, 0x100 ≤ unit.toNat := by
  induction p generalizing c with
  | nil => simp
  | cons unit p ih => simp [ih, le_or_iff, or_assoc]

theorem Given.failed (given : s.Given units) (error : s.errorStatus.isSome = true) :
    s.Failed ∧ 2 ^ 30 - 1 < units.length := by
  unfold Given at given
  split at given
  · obtain ⟨size, -, holds⟩ := given.room
    simp [holds.good] at error
  · exact ⟨given, by omega⟩

theorem Given.stuck (given : s.Given units) (error : s.errorStatus.isSome = true)
    (more : Utf16) : s.Given (units ++ more) := by
  obtain ⟨failed, long⟩ := given.failed error
  unfold Given
  rwa [length_append, if_neg (by omega)]

theorem Given.len_le (given : s.Given units) : s.len ≤ 2 ^ 30 - 1 ∧ s.len ≤ units.length := by
  unfold Given at given
  split at given
  · next short =>
      obtain ⟨size, -, holds⟩ := given.room
      rw [len_eq holds]
      exact ⟨short, le_rfl⟩
  · rw [len, given.1]
    simp

theorem given_tracks : Tracks mem Given where
  reserve given high small := reserve_given mem given high small
  len given := by
    have := given.len_le
    omega
  short given := given.len_le.2
  full given error := by
    obtain ⟨⟨empty, zero, -⟩, -⟩ := given.failed error
    omega
  stuck given error more := given.stuck error more

theorem loose_tracks : Tracks mem Loose where
  reserve loose high small := reserve_loose mem loose high small
  len loose := by
    rcases loose with ⟨empty, -⟩ | ⟨-, -, size, -, limit, holds⟩
    · rw [len, empty]
      simp
    · have room := holds.room
      rw [len_eq holds]
      omega
  short loose := by
    rcases loose with ⟨empty, -⟩ | ⟨-, -, size, -, -, holds⟩
    · rw [len, empty]
      simp
    · rw [len_eq holds]
  full loose error := by
    rcases loose with ⟨empty, zero, -⟩ | ⟨-, -, size, -, -, holds⟩
    · omega
    · simp [holds.good] at error
  stuck loose error more := by
    rcases loose with failed | ⟨-, -, size, -, -, holds⟩
    · exact .inl failed
    · simp [holds.good] at error

theorem concat_eq (some' : str.units ≠ []) (narrow : str.isWideChar = false → isWide str.units = false) :
    ∃ c, s.concat mem str = s.reserve mem c str.units ∧ isWide str.units = decide (0x100 ≤ c) := by
  unfold concat
  rw [if_neg some']
  split
  · refine ⟨_, rfl, ?_⟩
    rw [Bool.eq_iff_iff, decide_eq_true_iff, le_foldl_or]
    simp [isWide]
  · next low => exact ⟨0, by simp [write8_eq, Function.comp_def], narrow (by simpa using low)⟩

theorem concat_tracks (tracks : Tracks mem P) (held : P s units)
    (narrow : str.isWideChar = false → isWide str.units = false) (small : s.len + str.len < 2 ^ 31) :
    ∃ s', s.concat mem str = some s' ∧ P s' (units ++ str.units) := by
  by_cases empty : str.units = []
  · exact ⟨s, if_pos empty, by simpa [empty] using held⟩
  · obtain ⟨c, same, high⟩ := concat_eq mem empty narrow
    rw [same]
    exact tracks.reserve held high small

theorem init_isWideChar (size : Int) : (init mem size).isWideChar = false := by
  unfold init init2
  split <;> rfl

theorem init_given (short : size < 2 ^ 30) : (init mem size).Given [] := by
  have holds : (init mem size).Holds size [] size := init_holds mem (by omega)
  exact ⟨⟨size, short, holds.weaken⟩, init_isWideChar mem size⟩

theorem endString_given (given : s.Given units) :
    (units.length ≤ 2 ^ 30 - 1 → s.endString = .ok ⟨isWide units, units⟩) ∧
      (2 ^ 30 - 1 < units.length → ∃ error, s.endString = .error error) := by
  unfold Given at given
  constructor
  · intro short
    rw [if_pos short] at given
    obtain ⟨⟨size, -, holds⟩, wide⟩ := given
    simp only [endString, holds.good, len, holds.contents, wide]
    split
    · next empty =>
        obtain rfl := length_eq_zero_iff.mp empty
        rfl
    · rfl
  · intro long
    rw [if_neg (by omega)] at given
    obtain ⟨error, status⟩ := Option.isSome_iff_exists.mp given.2.2
    exact ⟨error, by rw [endString, status]⟩

theorem store_beyond (holds : s.Holds size units k) (beyond : size + 1 < units.length + more.length) :
    s.store more = none := by
  apply if_neg
  rw [holds.block, len_eq holds]
  split <;> omega

/-- The sum of the lengths is negative as an `int`, and the write goes behind the end of the block. -/
theorem reserve_wraps (opened : s.Open units) (sum : s.len + more.length = 2 ^ 31) : s.reserve mem c more = none := by
  obtain ⟨⟨size, short, holds⟩, -⟩ := opened
  have length := len_eq holds
  have capacity := holds.capacity
  have newLen : int32 ((s.len : Int) + more.length) = -2 ^ 31 := by
    rw [show (s.len : Int) + more.length = 2 ^ 31 by omega]
    decide
  have beyond : size + 1 < units.length + more.length := by omega
  simp only [reserve, newLen]
  rw [if_neg (by omega)]
  by_cases widens : ¬s.isWideChar = true ∧ 0x100 ≤ c
  · obtain ⟨s', spread, holds', -⟩ := widen_holds mem (n := 0) holds.contents holds.good holds.room short
    rw [if_pos widens, capacity, spread]
    simp [holds'.good, store_beyond holds' beyond]
  · rw [if_neg widens]
    simp [holds.good, store_beyond holds beyond]

/-- A string of `units` as the engine's functions return it; they may fail only if it is too long. -/
def Makes (units : Utf16) (r : Option (Except Exception JsString)) : Prop :=
  (∃ str : JsString, r = some (.ok str) ∧ str.units = units ∧
      (str.isWideChar = false → isWide units = false) ∧ units.length ≤ 2 ^ 30 + 1) ∨
    2 ^ 30 - 1 < units.length ∧ ∃ error, r = some (.error error)

theorem Given.makes (given : s.Given units) : Makes units (some s.endString) := by
  obtain ⟨short, long⟩ := endString_given given
  by_cases fits : units.length ≤ 2 ^ 30 - 1
  · exact .inl ⟨_, congrArg some (short fits), rfl, id, by omega⟩
  · obtain ⟨error, thrown⟩ := long (by omega)
    exact .inr ⟨by omega, error, congrArg some thrown⟩

theorem Loose.makes (loose : s.Loose units) (long : 2 ^ 30 - 1 < units.length) : Makes units (some s.endString) := by
  rcases loose with ⟨-, -, status⟩ | ⟨narrow, low, size, -, limit, holds⟩
  · obtain ⟨error, status⟩ := Option.isSome_iff_exists.mp status
    exact .inr ⟨long, error, by rw [endString, status]⟩
  · have room := holds.room
    refine .inl ⟨⟨false, units⟩, ?_, rfl, fun _ => low, by omega⟩
    simp only [endString, holds.good, len, holds.contents, narrow]
    rw [if_neg (by omega)]

theorem makes_of_tracks {r : Option (Except Exception JsString)}
    (made : ∀ {P}, Tracks mem P → P (init mem n) [] → ∃ b, r = some b.endString ∧ P b units)
    (limit : n ≤ 2 ^ 30 + 1) (long : 2 ^ 30 ≤ n → 2 ^ 30 - 1 < units.length) : Makes units r := by
  by_cases fits : n < 2 ^ 30
  · obtain ⟨b, rfl, given⟩ := made (given_tracks mem) (init_given mem fits)
    exact given.makes
  · have holds : (init mem n).Holds n [] n := init_holds mem (by omega)
    obtain ⟨b, rfl, loose⟩ := made (loose_tracks mem)
      (.inr ⟨init_isWideChar mem n, rfl, n, not_lt.mp fits, limit, holds.weaken⟩)
    exact loose.makes (long (not_lt.mp fits))

/-- Two strings of the greatest lengths make the sum of their lengths wrap. -/
theorem concatValue_given (given : s.Given units)
    (narrow : str.isWideChar = false → isWide str.units = false) (limit : str.units.length ≤ 2 ^ 30 + 1) :
    if units.length < 2 ^ 30 ∧ units.length + str.units.length = 2 ^ 31 then s.concatValue mem str = none
    else ∃ s', s.concatValue mem str = some s' ∧ s'.Given (units ++ str.units) := by
  split
  · next wraps =>
      have opened : s.Open units := by rwa [Given, if_pos (by omega)] at given
      obtain ⟨⟨size, -, holds⟩, -⟩ := id opened
      have some : str.units ≠ [] := by
        intro none
        rw [none, length_nil] at wraps
        omega
      obtain ⟨c, same, -⟩ := concat_eq mem some narrow
      rw [concatValue, if_neg (by simp [holds.good]), same]
      exact reserve_wraps mem opened (by rw [len_eq holds]; exact wraps.2)
  · next fits =>
      have small : s.len + str.len < 2 ^ 31 := by
        have short := given.len_le
        unfold JsString.len
        unfold Given at given
        split at given
        · omega
        · rw [StringBuffer.len, given.1, length_nil]
          omega
      unfold concatValue
      split
      · next error => exact ⟨s, rfl, (given_tracks mem).stuck given error _⟩
      · exact concat_tracks mem (given_tracks mem) given narrow small

end StringBuffer

end Text
