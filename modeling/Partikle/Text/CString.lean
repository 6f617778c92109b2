import Partikle.Text.Buffer

/-!
`JS_ToCStringLen2` and `JS_NewStringLen`, and when a string comes back from its UTF-8 form.
-/

namespace Text

open Strings StringBuffer Wrap List Option

structure LiveString extends JsString where
  short : units.length ≤ 2 ^ 30 - 1
  narrow : isWideChar = false → ∀ u ∈ units, u.toNat < 0x100

def nextChar (cesu8 : Bool) (unit : BitVec 16) : Utf16 → Nat × Utf16
  | [] => (unit.toNat, [])
  | next :: rest =>
    if isHiSurrogate unit.toNat ∧ ¬cesu8 ∧ isLoSurrogate next.toNat then
      (fromSurrogate unit.toNat next.toNat, rest)
    else (unit.toNat, next :: rest)

theorem nextChar_length (cesu8 : Bool) (unit : BitVec 16) (rest : Utf16) :
    (nextChar cesu8 unit rest).2.length ≤ rest.length := by
  cases rest with
  | nil => simp [nextChar]
  | cons next rest =>
    simp only [nextChar]
    split <;> simp

def encode16 (cesu8 : Bool) : Utf16 → List Nat
  | [] => []
  | unit :: rest => unicodeToUtf8 (nextChar cesu8 unit rest).1 ++ encode16 cesu8 (nextChar cesu8 unit rest).2
termination_by units => units.length
decreasing_by
  have := nextChar_length cesu8 unit rest
  simp only [length_cons]
  omega

def encodeByte (c : Nat) : List Nat := if c < 0x80 then [c] else [(c >>> 6) ||| 0xc0, (c &&& 0x3f) ||| 0x80]

def encode8 (units : Utf16) : List Nat := units.flatMap fun unit => encodeByte unit.toNat

def newBytes (mem : Memory) (size : Int) (bytes : List Nat) : Option (Except Exception (List Nat)) :=
  match jsAllocString mem size false with
  | none => some (.error .outOfMemory)
  | some block => if sizeofJsString + bytes.length + 1 ≤ block then some (.ok bytes) else none

def toCStringLen2 (mem : Memory) (cesu8 : Bool) (str : JsString) : Option (Except Exception (List Nat)) :=
  let len : Int := str.len
  if str.isWideChar then newBytes mem (int32 (len * 3)) (encode16 cesu8 str.units)
  else
    let count := (str.units.map fun unit => unit.toNat >>> 7).sum
    if count = 0 then some (.ok (str.units.map BitVec.toNat))
    else newBytes mem (int32 (len + count)) (encode8 str.units)

def isTail (b : Nat) : Bool := 0x80 ≤ b && b < 0xc0

def skipInvalid (p : List Nat) : List Nat := ((p.dropWhile isTail).drop 1).dropWhile isTail

/-- The code point at the start of a text, 0xfffd for an invalid sequence, and the bytes behind it. -/
def readChar (p : List Nat) : Nat × List Nat :=
  match unicodeFromUtf8 p (int32 p.length) with
  | some (c, next) => if c ≤ 0x10FFFF then (c, next) else (0xfffd, skipInvalid p)
  | none => (0xfffd, skipInvalid p)

theorem skipInvalid_length (b : Nat) (p : List Nat) : (skipInvalid (b :: p)).length ≤ p.length := by
  have behind : ∀ l : List Nat, (l.dropWhile isTail).length ≤ l.length :=
    fun l => (dropWhile_suffix isTail).length_le
  have last := behind (((b :: p).dropWhile isTail).drop 1)
  have first := behind (b :: p)
  rw [length_drop] at last
  simp only [length_cons] at first
  unfold skipInvalid
  omega

theorem readChar_length (b : Nat) (p : List Nat) : (readChar (b :: p)).2.length ≤ p.length := by
  have skipped := skipInvalid_length b p
  unfold readChar
  split
  · next read =>
      split
      · exact unicodeFromUtf8_length read
      · exact skipped
  · exact skipped

def decode (mem : Memory) (s : StringBuffer) : List Nat → Option StringBuffer
  | [] => some s
  | b :: p =>
    if b < 128 then do
      decode mem (← s.putc8 mem b) p
    else
      let c := (readChar (b :: p)).1
      if 0x10000 ≤ c then do
        let s ← s.putc16 mem (getHiSurrogate c)
        decode mem (← s.putc16 mem (getLoSurrogate c)) (readChar (b :: p)).2
      else do
        decode mem (← s.putc16 mem c) (readChar (b :: p)).2
termination_by p => p.length
decreasing_by
  all_goals
    have := readChar_length b p
    simp only [length_cons]
    omega

def jsNewString8 (mem : Memory) (buf : List Nat) : Except Exception JsString :=
  if int32 buf.length ≤ 0 then .ok ⟨false, []⟩
  else
    match jsAllocString mem (int32 buf.length) false with
    | none => .error .outOfMemory
    | some _ => .ok ⟨false, buf.map (.ofNat 16)⟩

def newStringLen (mem : Memory) (buf : List Nat) : Option (Except Exception JsString) :=
  let ascii := buf.takeWhile (· < 128)
  if (ascii.length : Int) > jsStringLenMax then some (.error .stringTooLong)
  else
    match buf.dropWhile (· < 128) with
    | [] => some (jsNewString8 mem buf)
    | rest => do
        let s ← (init mem (int32 buf.length)).write8 mem ascii
        return (← decode mem s rest).endString

def roundTrip (mem : Memory) (cesu8 : Bool) (str : JsString) : Option (Except Exception JsString) := do
  match ← toCStringLen2 mem cesu8 str with
  | .error error => return .error error
  | .ok bytes => newStringLen mem bytes

variable {unit : BitVec 16} {c size : Nat} {units ascii more : Utf16} {bytes : List Nat}

section Encoding

variable (cesu8 : Bool)

theorem nextChar_cases (unit : BitVec 16) (rest : Utf16) :
    nextChar cesu8 unit rest = (unit.toNat, rest) ∨ ∃ next rest', rest = next :: rest' ∧
      isHiSurrogate unit.toNat = true ∧ isLoSurrogate next.toNat = true ∧
      nextChar cesu8 unit rest = (fromSurrogate unit.toNat next.toNat, rest') := by
  cases rest with
  | nil => exact .inl rfl
  | cons next rest =>
    simp only [nextChar]
    split
    · next pair => exact .inr ⟨next, rest, rfl, pair.1, pair.2.2, rfl⟩
    · exact .inl rfl

theorem nextChar_of_not_hi (plain : isHiSurrogate unit.toNat = false)
    (rest : Utf16) : nextChar cesu8 unit rest = (unit.toNat, rest) := by
  cases rest with
  | nil => rfl
  | cons next rest => simp [nextChar, plain]

theorem encode16_cons_of_not_hi (plain : isHiSurrogate unit.toNat = false)
    (rest : Utf16) : encode16 cesu8 (unit :: rest) = unicodeToUtf8 unit.toNat ++ encode16 cesu8 rest := by
  rw [encode16, nextChar_of_not_hi cesu8 plain]

theorem not_hi_of_lt (small : c < 0xD800) : isHiSurrogate c = false := by
  rw [← Bool.not_eq_true, isHiSurrogate_iff]
  omega

theorem encode8_eq (narrow : ∀ u ∈ units, u.toNat < 0x100) : encode8 units = encode16 cesu8 units := by
  induction units with
  | nil => simp [encode8, encode16]
  | cons unit rest ih =>
    have small := narrow unit (by simp)
    have same := ih fun u mem => narrow u (by simp [mem])
    rw [encode16_cons_of_not_hi cesu8 (not_hi_of_lt (by omega)), ← same]
    have sequence : unicodeToUtf8 unit.toNat = encodeByte unit.toNat := by
      unfold unicodeToUtf8 encodeByte tailByte
      rw [if_pos (show unit.toNat < 0x800 by omega), Nat.shiftRight_zero]
    rw [sequence, encode8, encode8, flatMap_cons]

theorem length_unicodeToUtf8 (range : c ≤ 0x10FFFF) : (unicodeToUtf8 c).length ≤ (if c < 0x10000 then 3 else 4) ∧
      (0x10000 ≤ c → 2 ≤ (unicodeToUtf8 c).length) := by
  unfold unicodeToUtf8
  repeat' split
  all_goals simp
  all_goals omega

theorem length_encode16 (units : Utf16) :
    units.length ≤ (encode16 cesu8 units).length ∧ (encode16 cesu8 units).length ≤ 3 * units.length := by
  fun_induction encode16 cesu8 units with
  | case1 => simp
  | case2 unit rest ih =>
    have small := unit.isLt
    rw [length_append]
    rcases nextChar_cases cesu8 unit rest with plain | ⟨next, rest', rfl, high, low, pair⟩
    · rw [plain] at ih ⊢
      have some := length_unicodeToUtf8_pos (c := unit.toNat) (by omega)
      have bytes := (length_unicodeToUtf8 (c := unit.toNat) (by omega)).1
      rw [if_pos small] at bytes
      simp only [length_cons] at ih ⊢
      omega
    · rw [pair] at ih ⊢
      have range := fromSurrogate_bounds high low
      have bytes := length_unicodeToUtf8 range.2
      rw [if_neg (by omega)] at bytes
      simp only [length_cons] at ih ⊢
      omega

theorem length_encode8 (narrow : ∀ u ∈ units, u.toNat < 0x100) :
    (encode8 units).length = units.length + (units.map fun unit => unit.toNat >>> 7).sum ∧
      (encode8 units).length ≤ 2 * units.length := by
  induction units with
  | nil => exact ⟨rfl, le_refl _⟩
  | cons unit rest ih =>
    have small := narrow unit (by simp)
    obtain ⟨same, most⟩ := ih fun u mem => narrow u (by simp [mem])
    have bit : unit.toNat >>> 7 = unit.toNat / 2 ^ 7 := Nat.shiftRight_eq_div_pow _ 7
    have step : (encode8 (unit :: rest)).length = (if unit.toNat < 0x80 then 1 else 2) + (encode8 rest).length := by
      rw [encode8, flatMap_cons, length_append, encodeByte]
      split <;> rfl
    rw [step, map_cons, sum_cons, length_cons, bit]
    split <;> omega

theorem encode16_append (low : ∀ u ∈ ascii, u.toNat < 0x80) (rest : Utf16) :
    encode16 cesu8 (ascii ++ rest) = ascii.map BitVec.toNat ++ encode16 cesu8 rest := by
  induction ascii with
  | nil => rfl
  | cons unit ascii ih =>
    have small := low unit (by simp)
    have same := ih fun u mem => low u (by simp [mem])
    have one : unicodeToUtf8 unit.toNat = [unit.toNat] := if_pos small
    rw [cons_append, encode16_cons_of_not_hi cesu8 (not_hi_of_lt (by omega)), same, one]
    rfl

theorem encode16_ascii (low : ∀ u ∈ ascii, u.toNat < 0x80) : encode16 cesu8 ascii = ascii.map BitVec.toNat := by
  have whole := encode16_append cesu8 low []
  rw [encode16] at whole
  simpa using whole

theorem encode16_first (high : 0x80 ≤ unit.toNat) (rest : Utf16) :
    ∃ first bytes, encode16 cesu8 (unit :: rest) = first :: bytes ∧ 0xc0 ≤ first := by
  have sequence : ∃ first bytes, unicodeToUtf8 (nextChar cesu8 unit rest).1 = first :: bytes ∧ 0xc0 ≤ first := by
    rcases nextChar_cases cesu8 unit rest with plain | ⟨next, rest', rfl, hi, lo, pair⟩
    · rw [plain]
      exact unicodeToUtf8_cons high (by omega)
    · have range := fromSurrogate_bounds hi lo
      rw [pair]
      exact unicodeToUtf8_cons (by omega) range.2
  obtain ⟨first, bytes, shape, beyond⟩ := sequence
  exact ⟨first, bytes ++ encode16 cesu8 (nextChar cesu8 unit rest).2, by rw [encode16, shape]; rfl,
    beyond⟩

end Encoding

section Decoding

variable (mem : Memory)

def putUnit (mem : Memory) (s : StringBuffer) (unit : BitVec 16) : Option StringBuffer :=
  if unit.toNat < 128 then s.putc8 mem unit.toNat else s.putc16 mem unit.toNat

theorem readChar_sequence {p : List Nat} (range : c ≤ 0x10FFFF) (small : (unicodeToUtf8 c ++ p).length < 2 ^ 31) :
    readChar (unicodeToUtf8 c ++ p) = (c, p) := by
  have whole : int32 (unicodeToUtf8 c ++ p).length = (unicodeToUtf8 c ++ p).length :=
    int32_of_small (by omega) (by omega)
  have read : unicodeFromUtf8 (unicodeToUtf8 c ++ p) (unicodeToUtf8 c ++ p).length = some (c, p) :=
    unicodeFromUtf8_unicodeToUtf8 range p (by rw [int32_of_small (by omega) (by omega)]; simp)
  rw [readChar, whole, read]
  simp [range]

theorem decode_sequence {p : List Nat} (low : 0x80 ≤ c) (range : c ≤ 0x10FFFF)
    (small : (unicodeToUtf8 c ++ p).length < 2 ^ 31) (s : StringBuffer) :
    decode mem s (unicodeToUtf8 c ++ p) =
      if 0x10000 ≤ c then do
        let s ← s.putc16 mem (getHiSurrogate c)
        decode mem (← s.putc16 mem (getLoSurrogate c)) p
      else (do decode mem (← s.putc16 mem c) p) := by
  have read := readChar_sequence range small
  obtain ⟨first, bytes, shape, beyond⟩ := unicodeToUtf8_cons low range
  rw [shape, cons_append] at read ⊢
  rw [decode, if_neg (show ¬first < 128 by omega)]
  simp [read]

theorem decode_encode16 (cesu8 : Bool) (units : Utf16) (small : (encode16 cesu8 units).length < 2 ^ 31)
    (s : StringBuffer) : decode mem s (encode16 cesu8 units) = units.foldlM (putUnit mem) s := by
  fun_induction encode16 cesu8 units generalizing s with
  | case1 => rw [decode]; rfl
  | case2 unit rest ih =>
    have ih := ih (by rw [length_append] at small; omega)
    rcases nextChar_cases cesu8 unit rest with plain | ⟨next, rest', rfl, hi, lo, pair⟩
    · rw [plain] at ih small ⊢
      by_cases ascii : unit.toNat < 128
      · have one : unicodeToUtf8 unit.toNat = [unit.toNat] := if_pos ascii
        simp only [one, cons_append, nil_append]
        rw [decode, if_pos ascii, foldlM_cons, putUnit, if_pos ascii]
        simp [ih]
      · rw [decode_sequence mem (by omega) (by omega) small, if_neg (by omega), foldlM_cons, putUnit, if_neg ascii]
        simp [ih]
    · have range := fromSurrogate_bounds hi lo
      obtain ⟨first, second⟩ := surrogates_fromSurrogate hi lo
      rw [pair] at ih small ⊢
      rw [isHiSurrogate_iff] at hi
      rw [isLoSurrogate_iff] at lo
      have beyond : ¬unit.toNat < 128 ∧ ¬next.toNat < 128 := by omega
      rw [decode_sequence mem (by omega) range.2 small, if_pos range.1, first, second]
      simp [putUnit, beyond, ih]

variable {s : StringBuffer} {n : Nat}

theorem putUnit_eq (unit : BitVec 16) (full : s.errorStatus.isSome = true → s.size ≤ s.len)
    (small : s.len + 1 < 2 ^ 31) :
    putUnit mem s unit = s.reserve mem unit.toNat [unit] := by
  have same : BitVec.ofNat 16 unit.toNat = unit := by simp
  unfold putUnit
  split
  · rw [putc8_eq mem (by omega) small, same]
  · rw [putc16_eq mem full small, same]

theorem putUnit_of_holds (unit : BitVec 16) (holds : s.Holds size units (n + 1)) :
    putUnit mem s unit = s.reserve mem unit.toNat [unit] := by
  have room := holds.room
  have small := holds.small
  exact putUnit_eq mem unit (by simp [holds.good]) (by rw [len, holds.contents]; omega)

theorem puts_holds (holds : s.Holds size units (n + more.length))
    (fits : s.isWideChar = true ∨ (∀ u ∈ more, u.toNat < 0x100) ∨ size < 2 ^ 30) :
    ∃ s', more.foldlM (putUnit mem) s = some s' ∧ s'.Holds size (units ++ more) n := by
  induction more generalizing s units with
  | nil => exact ⟨s, rfl, by simpa using holds⟩
  | cons unit more ih =>
    have one : s.isWideChar = true ∨ unit.toNat < 0x100 ∨ size < 2 ^ 30 :=
      fits.imp_right (Or.imp_left fun low => low unit (by simp))
    have room : s.Holds size units (n + more.length + [unit].length) := holds
    obtain ⟨s', put, holds', wide⟩ := reserve_holds mem room one
    have rest : s'.isWideChar = true ∨ (∀ u ∈ more, u.toNat < 0x100) ∨ size < 2 ^ 30 :=
      fits.imp (fun is => by simp [wide, is]) (Or.imp_left fun low u mem => low u (by simp [mem]))
    obtain ⟨s'', puts, holds''⟩ := ih holds' rest
    refine ⟨s'', ?_, by simpa using holds''⟩
    rwa [foldlM_cons, putUnit_of_holds mem unit room, put]

theorem puts_failed (failed : s.Failed) (more : Utf16) : more.foldlM (putUnit mem) s = some s := by
  induction more with
  | nil => rfl
  | cons unit more ih =>
    have none : s.len = 0 := by rw [len, failed.1, length_nil]
    rwa [foldlM_cons, putUnit_eq mem unit (fun _ => by rw [failed.2.1]; omega) (by omega), reserve_failed mem failed]

theorem puts_fails (holds : s.Holds size units (n + more.length))
    (narrow : s.isWideChar = false) (wide : ∃ u ∈ more, 0x100 ≤ u.toNat) (long : 2 ^ 30 ≤ size) :
    ∀ s', more.foldlM (putUnit mem) s = some s' → s'.Failed := by
  induction more generalizing s units with
  | nil => simp at wide
  | cons unit more ih =>
    intro s' puts
    have room : s.Holds size units (n + more.length + [unit].length) := holds
    rw [foldlM_cons, putUnit_of_holds mem unit room] at puts
    by_cases low : unit.toNat < 0x100
    · have rest : ∃ u ∈ more, 0x100 ≤ u.toNat := by
        obtain ⟨u, mem, high⟩ := wide
        rcases mem_cons.mp mem with rfl | mem
        · omega
        · exact ⟨u, mem, high⟩
      obtain ⟨s₁, put, holds', same⟩ := reserve_holds mem room (.inr (.inl low))
      rw [put] at puts
      exact ih holds' (by simp [same, narrow, low]) rest s' puts
    · obtain ⟨s₁, put, puts⟩ := bind_eq_some_iff.mp puts
      have failed := reserve_fails mem room narrow (not_lt.mp low) long put
      rw [puts_failed mem failed] at puts
      cases puts
      exact failed

end Decoding

section RoundTrip

variable (mem : Memory) (cesu8 : Bool)

theorem split_ascii (units : Utf16) :
    (∀ u ∈ units, u.toNat < 0x80) ∨ ∃ ascii unit rest, units = ascii ++ unit :: rest ∧ (∀ u ∈ ascii, u.toNat < 0x80) ∧
      0x80 ≤ unit.toNat := by
  induction units with
  | nil => exact .inl (by simp)
  | cons unit units ih =>
    by_cases low : unit.toNat < 0x80
    · rcases ih with all | ⟨ascii, first, rest, rfl, all, high⟩
      · exact .inl (by simpa [low] using all)
      · exact .inr ⟨unit :: ascii, first, rest, rfl, by simpa [low] using all, high⟩
    · exact .inr ⟨[], unit, units, rfl, by simp, by omega⟩

theorem ascii_bytes (low : ∀ u ∈ ascii, u.toNat < 0x80) (rest : List Nat) :
    (ascii.map BitVec.toNat ++ rest).takeWhile (· < 128) = ascii.map BitVec.toNat ++ rest.takeWhile (· < 128) ∧
      (ascii.map BitVec.toNat ++ rest).dropWhile (· < 128) = rest.dropWhile (· < 128) := by
  have all : ∀ b ∈ ascii.map BitVec.toNat, decide (b < 128) = true := by simpa using low
  exact ⟨takeWhile_append_of_pos all, dropWhile_append_of_pos all⟩

theorem newStringLen_ascii (low : ∀ u ∈ units, u.toNat < 0x80) (short : units.length ≤ 2 ^ 30 - 1) :
    newStringLen mem (units.map BitVec.toNat) = some (.ok ⟨false, units⟩) := by
  obtain ⟨whole, nothing⟩ := ascii_bytes low []
  rw [append_nil] at whole nothing
  have length : int32 (units.map BitVec.toNat).length = units.length := by
    rw [length_map]
    exact int32_of_small (by omega) (by omega)
  have granted : jsAllocString mem units.length false = _ := init_block mem (by omega)
  unfold newStringLen
  simp only [whole, nothing, takeWhile_nil, append_nil, dropWhile_nil]
  rw [if_neg (by rw [length_map, jsStringLenMax]; omega), jsNewString8, length]
  rcases eq_or_ne units [] with rfl | empty
  · rfl
  · have some : 0 < units.length := length_pos_iff.mpr empty
    rw [if_neg (by omega), granted]
    simp [Function.comp_def]

theorem newStringLen_eq {rest : Utf16} (low : ∀ u ∈ ascii, u.toNat < 0x80)
    (high : 0x80 ≤ unit.toNat) (short : (ascii ++ unit :: rest).length ≤ 2 ^ 30 - 1)
    (length : (encode16 cesu8 (ascii ++ unit :: rest)).length = size) (small : size < 2 ^ 31) :
    ∃ s n, s.Holds size ascii (n + (unit :: rest).length) ∧ s.isWideChar = false ∧
      newStringLen mem (encode16 cesu8 (ascii ++ unit :: rest)) = ((unit :: rest).foldlM (putUnit mem) s).map
      endString := by
  obtain ⟨first, bytes, shape, beyond⟩ := encode16_first cesu8 high rest
  obtain ⟨start, behind⟩ := ascii_bytes low (first :: bytes)
  have stop : ¬first < 128 := by omega
  simp only [takeWhile_cons, dropWhile_cons, stop, decide_false, Bool.false_eq_true,
    if_false, append_nil] at start behind
  have units := (length_encode16 cesu8 (ascii ++ unit :: rest)).1
  rw [length_append] at units short
  have room : (init mem size).Holds size [] (size - ascii.length + ascii.length) := by
    rw [Nat.sub_add_cancel (by omega)]
    exact init_holds mem small
  obtain ⟨s, put, holds, narrow⟩ := reserve_holds mem room (.inr (.inl (show 0 < 0x100 by decide)))
  have written : (init mem size).write8 mem (ascii.map BitVec.toNat) = some s := by
    simpa [write8_eq, Function.comp_def] using put
  have decoded := decode_encode16 mem cesu8 (unit :: rest) (by grind [encode16_append]) s
  refine ⟨s, size - (ascii.length + (unit :: rest).length), ?_, ?_, ?_⟩
  · rwa [show size - (ascii.length + (unit :: rest).length) + (unit :: rest).length = size - ascii.length by omega]
  · simp [narrow, init, init2, init_block mem small]
  · have bytes16 := encode16_append cesu8 low (unit :: rest)
    rw [shape] at bytes16 decoded
    have size' : int32 (encode16 cesu8 (ascii ++ unit :: rest)).length = size := by
      rw [length]
      exact int32_of_small (by omega) (by omega)
    unfold newStringLen
    rw [size', bytes16]
    simp only [start, behind]
    rw [if_neg (by rw [length_map, jsStringLenMax]; omega), written]
    simp [decoded, map_eq_bind]

theorem newStringLen_ok (short : units.length ≤ 2 ^ 30 - 1) (small : (encode16 cesu8 units).length < 2 ^ 31)
    (fits : (∀ u ∈ units, u.toNat < 0x100) ∨ (encode16 cesu8 units).length < 2 ^ 30) :
    ∃ wide, newStringLen mem (encode16 cesu8 units) = some (.ok ⟨wide, units⟩) := by
  rcases split_ascii units with all | ⟨ascii, unit, rest, rfl, low, high⟩
  · rw [encode16_ascii cesu8 all]
    exact ⟨false, newStringLen_ascii mem all short⟩
  · obtain ⟨s, n, holds, narrow, made⟩ := newStringLen_eq mem cesu8 low high short rfl small
    have rest_fits : (∀ u ∈ unit :: rest, u.toNat < 0x100) ∨ (encode16 cesu8 (ascii ++ unit :: rest)).length < 2 ^ 30 :=
      fits.imp_left fun all u mem => all u (mem_append_right ascii mem)
    obtain ⟨s', puts, holds'⟩ := puts_holds mem holds (.inr rest_fits)
    rw [made, puts, map_some, endString, holds'.good]
    simp [len, holds'.contents]

theorem newStringLen_fails (short : units.length ≤ 2 ^ 30 - 1) (small : (encode16 cesu8 units).length < 2 ^ 31)
    (wide : ∃ u ∈ units, 0x100 ≤ u.toNat) (long : 2 ^ 30 ≤ (encode16 cesu8 units).length) (str : JsString) :
    newStringLen mem (encode16 cesu8 units) ≠ some (.ok str) := by
  obtain ⟨u, there, beyond⟩ := wide
  rcases split_ascii units with all | ⟨ascii, unit, rest, rfl, low, high⟩
  · have small := all u there
    omega
  · obtain ⟨s, n, holds, narrow, made⟩ := newStringLen_eq mem cesu8 low high short rfl small
    have later : u ∈ unit :: rest := by
      rcases mem_append.mp there with early | later
      · have small := low u early
        omega
      · exact later
    have fails := puts_fails mem holds narrow ⟨u, later, beyond⟩ long
    rw [made]
    cases puts : (unit :: rest).foldlM (putUnit mem) s with
    | none => simp
    | some s' =>
      obtain ⟨-, -, error⟩ := fails s' puts
      obtain ⟨status, error⟩ := isSome_iff_exists.mp error
      simp [endString, error]

theorem newBytes_ok (small : size < 2 ^ 31)
    (fits : bytes.length ≤ size) : newBytes mem (int32 size) bytes = some (.ok bytes) := by
  have same : int32 size = size := int32_of_small (by omega) (by omega)
  rw [newBytes, same, init_block mem small]
  exact if_pos (by omega)

theorem newBytes_fails (long : 2 ^ 31 ≤ size)
    (short : size < 2 ^ 32 - sizeofJsString - 1) : newBytes mem (int32 size) bytes = some (.error .outOfMemory) := by
  unfold sizeofJsString at short
  have wrapped : int32 size = size - 2 ^ 32 := by
    rw [int32, Int.bmod_def]
    omega
  have bytes : unitBytes (size - 2 ^ 32) false = size - 2 ^ 32 :=
    int32_of_small (n := size - 2 ^ 32) (by omega) (by omega)
  have refused : jsAllocString mem (size - 2 ^ 32) false = none := by
    exact allocate_of_neg mem (by unfold sizeofJsString; omega) (by unfold sizeofJsString; omega)
  rw [newBytes, wrapped, refused]

theorem toCStringLen2_eq (str : LiveString) : toCStringLen2 mem cesu8 str.toJsString =
      if str.isWideChar ∧ 2 ^ 31 ≤ 3 * str.units.length then some (.error .outOfMemory)
      else some (.ok (encode16 cesu8 str.units)) := by
  have short := str.short
  have bound := (length_encode16 cesu8 str.units).2
  unfold toCStringLen2 JsString.len
  by_cases wide : str.isWideChar
  · have size : (str.units.length : Int) * 3 = (3 * str.units.length : Nat) := by omega
    simp only [wide, if_true, true_and, size]
    by_cases long : 2 ^ 31 ≤ 3 * str.units.length
    · rw [if_pos long]
      exact newBytes_fails mem long (by unfold sizeofJsString; omega)
    · rw [if_neg long]
      exact newBytes_ok mem (by omega) bound
  · have narrow := str.narrow (by simpa using wide)
    obtain ⟨length, twice⟩ := length_encode8 narrow
    rw [encode8_eq cesu8 narrow] at length twice ⊢
    simp only [wide, false_and, if_false, Bool.false_eq_true]
    split
    · next none =>
        rw [encode16_ascii cesu8]
        intro u there
        have zero := List.sum_eq_zero_iff_forall_eq_nat.mp none (u.toNat >>> 7) (mem_map_of_mem there)
        omega
    · rw [show ∀ n m : Nat, (n : Int) + m = (n + m : Nat) from fun _ _ => rfl, ← length]
      exact newBytes_ok mem (by omega) (le_refl _)

/-- The size that `JS_ToCStringLen2` asks for, as a number that does not wrap. -/
def bufferSize (str : JsString) : Int :=
  if str.isWideChar then str.len * 3 else str.len + (str.units.map fun unit => unit.toNat >>> 7).sum

theorem toCStringLen2_room (str : LiveString) :
    (int32 (bufferSize str.toJsString) = bufferSize str.toJsString ∧
      (encode16 cesu8 str.units).length ≤ bufferSize str.toJsString ∧
      ∀ mem, toCStringLen2 mem cesu8 str.toJsString = some (.ok (encode16 cesu8 str.units))) ∨
    ∀ mem, toCStringLen2 mem cesu8 str.toJsString = some (.error .outOfMemory) := by
  have short := str.short
  simp only [toCStringLen2_eq, bufferSize, JsString.len]
  by_cases wide : str.isWideChar
  · have bound := (length_encode16 cesu8 str.units).2
    simp only [wide, if_true, true_and]
    by_cases long : 2 ^ 31 ≤ 3 * str.units.length
    · exact .inr fun _ => if_pos long
    · exact .inl ⟨int32_of_small (by omega) (by omega), by omega, fun _ => if_neg long⟩
  · have narrow := str.narrow (by simpa using wide)
    obtain ⟨length, twice⟩ := length_encode8 narrow
    rw [encode8_eq cesu8 narrow] at length twice
    simp only [wide, false_and, if_false, Bool.false_eq_true]
    exact .inl ⟨int32_of_small (by omega) (by omega), by omega, fun _ => trivial⟩

/-- The sizes that the two conversions compute as `int`s do not wrap. -/
def Fits (cesu8 : Bool) (str : JsString) : Prop :=
  (str.isWideChar = true → 3 * str.units.length < 2 ^ 31) ∧
    ((∀ u ∈ str.units, u.toNat < 0x100) ∨ (encode16 cesu8 str.units).length < 2 ^ 30)

theorem roundTrip_of_fits (str : LiveString) (fits : Fits cesu8 str.toJsString) :
    ∃ wide, roundTrip mem cesu8 str.toJsString = some (.ok ⟨wide, str.units⟩) := by
  obtain ⟨words, bytes⟩ := fits
  have short : ¬(str.isWideChar = true ∧ 2 ^ 31 ≤ 3 * str.units.length) := by
    rintro ⟨wide, long⟩
    have := words wide
    omega
  have small : (encode16 cesu8 str.units).length < 2 ^ 31 := by
    have limit := str.short
    rcases bytes with narrow | low
    · have twice := (length_encode8 narrow).2
      rw [encode8_eq cesu8 narrow] at twice
      omega
    · omega
  obtain ⟨wide, made⟩ := newStringLen_ok mem cesu8 str.short small bytes
  refine ⟨wide, ?_⟩
  rwa [roundTrip, toCStringLen2_eq, if_neg short]

theorem roundTrip_of_not_fits (str : LiveString) (wraps : ¬Fits cesu8 str.toJsString)
    (back : JsString) : roundTrip mem cesu8 str.toJsString ≠ some (.ok back) := by
  have bound := (length_encode16 cesu8 str.units).2
  rw [roundTrip, toCStringLen2_eq]
  by_cases words : str.isWideChar = true ∧ 2 ^ 31 ≤ 3 * str.units.length
  · rw [if_pos words]
    simp
  · rw [if_neg words]
    have wide : ∃ u ∈ str.units, 0x100 ≤ u.toNat := by
      by_contra narrow
      refine wraps ⟨fun wide => ?_, .inl fun u there => ?_⟩
      · have := mt (And.intro wide) words
        omega
      · by_contra high
        exact narrow ⟨u, there, not_lt.mp high⟩
    have isWide : str.isWideChar = true := by
      by_contra narrow
      obtain ⟨u, there, high⟩ := wide
      have := str.narrow (by simpa using narrow) u there
      omega
    have few : 3 * str.units.length < 2 ^ 31 := by
      have := mt (And.intro isWide) words
      omega
    have long : 2 ^ 30 ≤ (encode16 cesu8 str.units).length := by
      by_contra low
      exact wraps ⟨fun _ => few, .inr (not_le.mp low)⟩
    exact newStringLen_fails mem cesu8 str.short (by omega) wide long back

/-- A string comes back from UTF-8, in both modes, exactly when no size wraps on the way. -/
theorem roundTrip_iff_fits (str : LiveString) :
    (∃ back, roundTrip mem cesu8 str.toJsString = some (.ok back) ∧ back.units = str.units) ↔
      Fits cesu8 str.toJsString := by
  constructor
  · rintro ⟨back, made, -⟩
    by_contra wraps
    exact roundTrip_of_not_fits mem cesu8 str wraps back made
  · intro fits
    obtain ⟨wide, made⟩ := roundTrip_of_fits mem cesu8 str fits
    exact ⟨_, made, rfl⟩

end RoundTrip

section Euros

def Memory.all : Memory where
  grants n := decide (0 < n ∧ n < 2 ^ 63)
  ample := fun _ some small => decide_eq_true ⟨some, small⟩
  empty := rfl
  bounded := fun _ large => decide_eq_false fun inside => absurd inside.2 (not_lt.mpr large)

theorem length_encode16_replicate (n : Nat) : (encode16 false (replicate n 0x20AC)).length = 3 * n := by
  induction n with
  | zero => rw [replicate_zero, encode16]; rfl
  | succ n ih =>
    rw [replicate_succ, encode16_cons_of_not_hi false (by decide), length_append, ih]
    have sequence : (unicodeToUtf8 (BitVec.toNat (0x20AC : BitVec 16))).length = 3 := by decide
    omega

def euros : LiveString where
  isWideChar := true
  units := replicate 357913942 0x20AC
  short := by rw [length_replicate]; omega
  narrow := fun narrow => by cases narrow

theorem euros_lost : ¬∃ back, roundTrip .all false euros.toJsString = some (.ok back) := by
  rintro ⟨back, made⟩
  refine roundTrip_of_not_fits .all false euros ?_ back made
  rintro ⟨-, narrow | low⟩
  · have small := narrow 0x20AC (mem_replicate.mpr ⟨by omega, rfl⟩)
    exact absurd small (by decide)
  · have long : (encode16 false euros.units).length = _ := length_encode16_replicate 357913942
    omega

end Euros

end Text
