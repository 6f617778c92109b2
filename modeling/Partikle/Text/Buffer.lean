import Partikle.Strings
import Partikle.Text.Utf8

/-!
String buffers. Lengths and sizes are C `int`s that wrap, block sizes are `size_t`s; a block is
known by its number of bytes and a write behind its end has no result. A reallocated block has
no slack.
-/

namespace Text

open Strings Wrap Option

inductive Exception where
  | outOfMemory
  | stringTooLong
deriving DecidableEq, Repr

def jsStringLenMax : Int := 2 ^ 30 - 1

def sizeofJsString : Nat := 16

/-- An allocator with as much memory as an object can have: a request fails only when it is
empty or beyond `PTRDIFF_MAX`. -/
structure Memory where
  grants : Nat → Bool
  ample : ∀ n, 0 < n → n < 2 ^ 63 → grants n = true
  empty : grants 0 = false
  bounded : ∀ n, 2 ^ 63 ≤ n → grants n = false

variable (mem : Memory)

def allocate (bytes : Int) : Option Nat :=
  let size := (bytes % 2 ^ 64).toNat
  if mem.grants size then some size else none

def unitBytes (size : Int) (isWideChar : Bool) : Int := int32 (if isWideChar then 2 * size else size)

def jsAllocString (maxLen : Int) (isWideChar : Bool) : Option Nat :=
  allocate mem (sizeofJsString + unitBytes maxLen isWideChar + if isWideChar then 0 else 1)

structure StringBuffer where
  units : Utf16
  size : Int
  isWideChar : Bool
  errorStatus : Option Exception
  block : Nat

namespace StringBuffer

def len (s : StringBuffer) : Nat := s.units.length

def init2 (size : Int) (isWide : Bool) : StringBuffer :=
  match jsAllocString mem size isWide with
  | none => ⟨[], 0, isWide, some .outOfMemory, 0⟩
  | some block => ⟨[], size, isWide, none, block⟩

def init (size : Int) : StringBuffer := init2 mem size false

variable (s : StringBuffer)

def setError (error : Exception) : StringBuffer :=
  { s with units := [], size := 0, errorStatus := some error, block := 0 }

def widen (size : Int) : Option StringBuffer :=
  match s.errorStatus with
  | some _ => some s
  | none =>
    match allocate mem (sizeofJsString + unitBytes size true) with
    | none => some (s.setError .outOfMemory)
    | some block =>
      -- the code units are spread from the last one on
      if sizeofJsString + 2 * s.len ≤ block then
        some { s with isWideChar := true, size, block }
      else none

def realloc (newLen : Int) (c : Nat) : Option StringBuffer :=
  match s.errorStatus with
  | some _ => some s
  | none =>
    if newLen > jsStringLenMax then some (s.setError .stringTooLong)
    else
      let newSize := min (max newLen ((int32 (s.size * 3)).tdiv 2)) jsStringLenMax
      if ¬s.isWideChar ∧ 0x100 ≤ c then s.widen mem newSize
      else
        match jsAllocString mem newSize s.isWideChar with
        | none => some (s.setError .outOfMemory)
        | some block => some { s with size := min newSize jsStringLenMax, block }

def store (units : Utf16) : Option StringBuffer :=
  if sizeofJsString + (if s.isWideChar then 2 else 1) * (s.len + units.length) ≤ s.block then
    some { s with units := s.units ++ units }
  else none

def putcSlow (c : Nat) : Option StringBuffer := do
  let s ← if (s.len : Int) ≥ s.size then s.realloc mem (s.len + 1) c else some s
  if s.errorStatus.isSome then some s
  else if s.isWideChar then s.store [.ofNat 16 c]
  else if c < 0x100 then s.store [.ofNat 16 c]
  else
    let s ← s.widen mem s.size
    if s.errorStatus.isSome then some s else s.store [.ofNat 16 c]

/-- For `c` up to 0xff. -/
def putc8 (c : Nat) : Option StringBuffer := do
  let s ← if (s.len : Int) ≥ s.size then s.realloc mem (s.len + 1) c else some s
  if s.errorStatus.isSome then some s else s.store [.ofNat 16 c]

/-- For `c` up to 0xffff. -/
def putc16 (c : Nat) : Option StringBuffer :=
  if (s.len : Int) < s.size ∧ (s.isWideChar ∨ c < 0x100) then s.store [.ofNat 16 c]
  else s.putcSlow mem c

/-- For `c` up to 0x10ffff. -/
def putc (c : Nat) : Option StringBuffer :=
  if 0x10000 ≤ c then do
    let s ← s.putc16 mem (getHiSurrogate c)
    if s.errorStatus.isSome then some s else s.putc16 mem (getLoSurrogate c)
  else s.putc16 mem c

def write8 (p : List Nat) : Option StringBuffer := do
  let newLen := int32 (s.len + p.length)
  let s ← if newLen > s.size then s.realloc mem newLen 0 else some s
  if s.errorStatus.isSome then some s else s.store (p.map (.ofNat 16))

def reserve (c : Nat) (more : Utf16) : Option StringBuffer := do
  let newLen := int32 (s.len + more.length)
  let s ←
    if newLen > s.size then s.realloc mem newLen c
    else if ¬s.isWideChar ∧ 0x100 ≤ c then s.widen mem s.size
    else some s
  if s.errorStatus.isSome then some s else s.store more

/-- `endString` is `string_buffer_end`; its block shrinks to the length of the string. -/
def endString : Except Exception JsString :=
  match s.errorStatus with
  | some error => .error error
  | none => if s.len = 0 then .ok ⟨false, []⟩ else .ok ⟨s.isWideChar, s.units⟩

end StringBuffer

/-- The buffer holds `units` in a block of `size` code units, with room for `n` more. -/
structure StringBuffer.Holds (s : StringBuffer) (size : Nat) (units : Utf16) (n : Nat) :
    Prop where
  contents : s.units = units
  capacity : s.size = size
  good : s.errorStatus = none
  block : s.block = sizeofJsString + if s.isWideChar then 2 * size else size + 1
  room : units.length + n ≤ size
  small : size < 2 ^ 31

def StringBuffer.Failed (s : StringBuffer) : Prop := s.units = [] ∧ s.size = 0 ∧ s.errorStatus.isSome

section Arithmetic

variable (mem : Memory)

theorem allocate_of_pos {n : Nat} (positive : 0 < n) (small : n < 2 ^ 63) : allocate mem n = some n := by
  unfold allocate
  have same : ((n : Int) % 2 ^ 64).toNat = n := by omega
  simp only [same, mem.ample n positive small, if_true]

theorem allocate_of_neg {n : Int} (low : -2 ^ 63 ≤ n) (negative : n < 0) : allocate mem n = none := by
  unfold allocate
  have huge : 2 ^ 63 ≤ (n % 2 ^ 64).toNat := by omega
  simp only [mem.bounded _ huge, Bool.false_eq_true, if_false]

end Arithmetic

namespace StringBuffer

variable (mem : Memory) {s s' : StringBuffer} {size n : Nat} {units more : Utf16} {c : Nat}

theorem init_block (small : size < 2 ^ 31) : jsAllocString mem size false = some (sizeofJsString + (size + 1)) := by
  have bytes : unitBytes size false = size := int32_of_small (n := size) (by omega) (by omega)
  have granted : allocate mem ((sizeofJsString + (size + 1) : Nat) : Int) = some _ :=
    allocate_of_pos mem (by omega) (by unfold sizeofJsString; omega)
  have request : (sizeofJsString + (size : Int) + 1) = (sizeofJsString + (size + 1) : Nat) := by omega
  rw [← granted, jsAllocString, bytes, ← request]
  simp

theorem init_holds (small : size < 2 ^ 31) : (init mem size).Holds size [] size := by
  unfold init init2
  rw [init_block mem small]
  exact ⟨rfl, rfl, rfl, rfl, by simp, small⟩

theorem store_holds (holds : s.Holds size units n) (more : Utf16) (fits : more.length ≤ n) :
    ∃ s', s.store more = some s' ∧ s'.Holds size (units ++ more) (n - more.length) ∧ s'.isWideChar = s.isWideChar := by
  obtain ⟨here, size', good, block, room, small⟩ := holds
  have inside : sizeofJsString + (if s.isWideChar then 2 else 1) * (s.len + more.length) ≤ s.block := by
    rw [block, len, here]
    split <;> omega
  refine ⟨_, if_pos inside, ⟨?_, size', good, block, ?_, small⟩, rfl⟩
  · simp [here]
  · rw [List.length_append]
    omega

theorem allocate_wide {size : Nat} (short : size < 2 ^ 30) :
    allocate mem (sizeofJsString + unitBytes size true) = some (sizeofJsString + 2 * size) := by
  have bytes : unitBytes size true = 2 * size := int32_of_small (n := 2 * size) (by omega) (by omega)
  have granted := allocate_of_pos mem (n := sizeofJsString + 2 * size) (by unfold sizeofJsString; omega)
    (by unfold sizeofJsString; omega)
  have request : (sizeofJsString + 2 * (size : Int)) = (sizeofJsString + 2 * size : Nat) := by omega
  rw [bytes, ← granted, request]

theorem widen_holds (contents : s.units = units) (good : s.errorStatus = none) (room : units.length + n ≤ size)
    (short : size < 2 ^ 30) : ∃ s', s.widen mem size = some s' ∧ s'.Holds size units n ∧ s'.isWideChar = true := by
  have inside : sizeofJsString + 2 * s.len ≤ sizeofJsString + 2 * size := by
    rw [len, contents]
    omega
  refine ⟨{ s with isWideChar := true, size, block := sizeofJsString + 2 * size }, ?_, ?_, rfl⟩
  · unfold widen
    rw [good]
    simp only [allocate_wide mem short]
    rw [if_pos inside]
  · exact ⟨contents, rfl, good, rfl, room, by omega⟩

theorem widen_inv {n : Int} (spread : s.widen mem n = some s') (good : s'.errorStatus = none) :
    s.errorStatus = none ∧ s'.units = s.units ∧ s'.isWideChar = true := by
  unfold widen at spread
  split at spread
  · next status =>
      cases spread
      simp [status] at good
  · split at spread
    · cases spread
      cases good
    · split at spread
      · cases spread
        exact ⟨good, rfl, rfl⟩
      · cases spread

theorem realloc_inv {n : Int} (grown : s.realloc mem n c = some s') (good : s'.errorStatus = none) :
    s.errorStatus = none ∧ s'.units = s.units ∧ (0x100 ≤ c → s'.isWideChar = true) := by
  unfold realloc at grown
  split at grown
  · next status =>
      cases grown
      simp [status] at good
  · split at grown
    · cases grown
      cases good
    · dsimp only at grown
      split at grown
      · obtain ⟨start, same, wide⟩ := widen_inv mem grown good
        exact ⟨start, same, fun _ => wide⟩
      · next kept =>
          split at grown
          · cases grown
            cases good
          · cases grown
            exact ⟨good, rfl, fun wide => by simpa [wide] using kept⟩

theorem newLen_eq (small : s.len + n < 2 ^ 31) : int32 ((s.len : Int) + n) = s.len + n :=
  int32_of_small (by omega) (by omega)

theorem putc16_eq (full : s.errorStatus.isSome = true → s.size ≤ s.len) (small : s.len + 1 < 2 ^ 31) :
    s.putc16 mem c = s.reserve mem c [.ofNat 16 c] := by
  simp only [putc16, putcSlow, reserve, List.length_singleton, newLen_eq small]
  by_cases beyond : (s.len : Int) ≥ s.size
  · rw [if_neg (by omega), if_pos beyond, if_pos (by omega)]
    cases grown : s.realloc mem (s.len + 1) c with
    | none => simp
    | some s' =>
      simp only [bind_eq_bind, bind_some]
      cases status : s'.errorStatus with
      | some error => simp
      | none =>
        have either : s'.isWideChar = true ∨ c < 0x100 := by
          by_cases wide : 0x100 ≤ c
          · exact .inl ((realloc_inv mem grown status).2.2 wide)
          · exact .inr (by omega)
        rcases either with is | low
        · simp [is]
        · simp [low]
  · have good : s.errorStatus = none := by
      cases status : s.errorStatus with
      | none => rfl
      | some error => exact absurd (full (by rw [status]; rfl)) (by omega)
    rw [if_neg (c := (s.len : Int) + (1 : Nat) > s.size) (by omega)]
    by_cases fits : s.isWideChar = true ∨ c < 0x100
    · rw [if_pos ⟨by omega, fits⟩, if_neg (by rcases fits with is | low <;> simp [*])]
      simp [good]
    · obtain ⟨narrow, high⟩ := not_or.mp fits
      rw [if_neg (fun both => fits both.2), if_neg beyond, if_pos ⟨narrow, by omega⟩]
      simp [good, narrow, high]

theorem putc8_eq (low : c < 0x100) (small : s.len + 1 < 2 ^ 31) : s.putc8 mem c = s.reserve mem c [.ofNat 16 c] := by
  have full : (s.len : Int) ≥ s.size ↔ (s.len : Int) + (1 : Nat) > s.size := by omega
  simp only [putc8, reserve, List.length_singleton, newLen_eq small, not_le.mpr low, and_false, if_false, full]
  rfl

theorem write8_eq (p : List Nat) : s.write8 mem p = s.reserve mem 0 (p.map (.ofNat 16)) := by
  simp [write8, reserve]

theorem reserve_failed (failed : s.Failed) (c : Nat) (more : Utf16) : s.reserve mem c more = some s := by
  obtain ⟨error, status⟩ := isSome_iff_exists.mp failed.2.2
  have notWidened (size : Int) : s.widen mem size = some s := by rw [widen, status]
  have notGrown (newLen : Int) : s.realloc mem newLen c = some s := by rw [realloc, status]
  simp only [reserve, notWidened, notGrown, ite_self]
  simp [status]

theorem Holds.newLen_le {k : Nat} (holds : s.Holds size units (n + k)) : ¬int32 (s.len + k) > s.size := by
  have room := holds.room
  have small := holds.small
  rw [len, holds.contents, holds.capacity, int32_of_small (by omega) (by omega)]
  omega

theorem stored_holds (holds : s.Holds size units (n + more.length)) :
    ∃ s', (some s >>= fun s => if s.errorStatus.isSome then some s else s.store more) = some s' ∧
      s'.Holds size (units ++ more) n ∧ s'.isWideChar = s.isWideChar := by
  obtain ⟨s', stored, holds', same⟩ := store_holds holds more (Nat.le_add_left ..)
  rw [Nat.add_sub_cancel] at holds'
  exact ⟨s', by simp [holds.good, stored], holds', same⟩

theorem reserve_holds (holds : s.Holds size units (n + more.length))
    (fits : s.isWideChar = true ∨ c < 0x100 ∨ size < 2 ^ 30) :
    ∃ s', s.reserve mem c more = some s' ∧ s'.Holds size (units ++ more) n ∧
      s'.isWideChar = (s.isWideChar || decide (0x100 ≤ c)) := by
  simp only [reserve, if_neg holds.newLen_le]
  split
  · next widens =>
      have short : size < 2 ^ 30 := by
        rcases fits with wide | low | short
        · exact absurd wide widens.1
        · omega
        · exact short
      obtain ⟨s1, spread, holds1, wide⟩ := widen_holds mem holds.contents holds.good holds.room short
      obtain ⟨s', stored, holds', same⟩ := stored_holds holds1
      rw [holds.capacity, spread]
      exact ⟨s', stored, holds', by simp [same, wide, widens.2]⟩
  · next kept =>
      obtain ⟨s', stored, holds', same⟩ := stored_holds holds
      refine ⟨s', stored, holds', same.trans ?_⟩
      cases wide : s.isWideChar with
      | true => rfl
      | false => simpa [wide] using kept

/-- The number of bytes wraps, and a block that is granted is shorter than its header. -/
theorem widen_long (good : s.errorStatus = none) (low : 2 ^ 30 ≤ size) (high : size < 2 ^ 31) :
    s.widen mem size = some (s.setError .outOfMemory) ∨ 2 ^ 30 + 1 < size ∧ s.widen mem size = none := by
  have bytes : unitBytes size true = 2 * size - 2 ^ 32 := by
    simp only [unitBytes, int32, if_true, Int.bmod_def]
    omega
  unfold widen
  rw [good]
  cases granted : allocate mem (sizeofJsString + unitBytes size true) with
  | none => exact .inl rfl
  | some block =>
    have tiny : block < sizeofJsString ∧ 2 ^ 30 + 1 < size := by
      rw [bytes] at granted
      by_cases negative : (sizeofJsString : Int) + (2 * size - 2 ^ 32) < 0
      · rw [allocate_of_neg mem (by omega) negative] at granted
        cases granted
      · simp only [allocate, ite_none_right_eq_some, some.injEq] at granted
        unfold sizeofJsString at *
        omega
    exact .inr ⟨tiny.2, if_neg (by omega)⟩

theorem reserve_fails (holds : s.Holds size units (n + more.length)) (narrow : s.isWideChar = false) (wide : 0x100 ≤ c)
    (long : 2 ^ 30 ≤ size) (put : s.reserve mem c more = some s') : s'.Failed := by
  simp only [reserve, if_neg holds.newLen_le] at put
  rw [if_pos ⟨by simp [narrow], wide⟩, holds.capacity] at put
  rcases widen_long mem holds.good long holds.small with refused | ⟨-, undefined⟩
  · rw [refused] at put
    cases put
    exact ⟨rfl, rfl, rfl⟩
  · rw [undefined] at put
    cases put

end StringBuffer

end Text
