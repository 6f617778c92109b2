import Partikle.Json.Exact

/-!
`JS_ToQuotedString`: the literal of a string, which is read back as that string.
-/

namespace Json

open Text Strings StringBuffer Option List

section Program

variable (mem : Memory)

def hexDigit (n : Nat) : Nat := if n < 10 then 0x30 + n else 0x61 + (n - 10)

def unicodeEscape (c : Nat) : List Nat :=
  [0x5c, 0x75, hexDigit (c / 0x1000 % 16), hexDigit (c / 0x100 % 16), hexDigit (c / 0x10 % 16), hexDigit (c % 16)]

def shortEscape (c : Nat) : Option Nat :=
  if c = 0x09 then some 0x74
  else if c = 0x0d then some 0x72
  else if c = 0x0a then some 0x6e
  else if c = 0x08 then some 0x62
  else if c = 0x0c then some 0x66
  else if c = 0x22 ∨ c = 0x5c then some c
  else none

def putQuoted (b : StringBuffer) (c : Nat) : Option StringBuffer :=
  match shortEscape c with
  | some letter => do
      let b ← b.putc8 mem 0x5c
      if b.errorStatus.isSome then some b else b.putc8 mem letter
  | none => if c < 32 ∨ isSurrogate c then b.write8 mem (unicodeEscape c) else b.putc mem c

/-- The characters of a string up to an error. In an 8 bit string there are no surrogates. -/
def putQuotedChars (b : StringBuffer) : Utf16 → Option StringBuffer
  | [] => some b
  | unit :: rest =>
    (putQuoted mem b (nextChar false unit rest).1).bind fun b =>
      if b.errorStatus.isSome then some b else putQuotedChars b (nextChar false unit rest).2
termination_by units => units.length
decreasing_by
  have := nextChar_length false unit rest
  simp only [length_cons]
  omega

def toQuotedString (str : JsString) : Option (Except Exception JsString) := do
  let b := init mem (str.len + 2 : Nat)
  if b.errorStatus.isSome then some b.endString
  else
    let b ← b.putc8 mem 0x22
    if b.errorStatus.isSome then some b.endString
    else
      let b ← putQuotedChars mem b str.units
      if b.errorStatus.isSome then some b.endString
      else
        let b ← b.putc8 mem 0x22
        some b.endString

end Program

section Literal

def quotedChar (c : Nat) : Utf16 :=
  match shortEscape c with
  | some letter => [0x5c, .ofNat 16 letter]
  | none => if c < 32 ∨ isSurrogate c then (unicodeEscape c).map (.ofNat 16) else unitsOf c

def quotedChars : Utf16 → Utf16
  | [] => []
  | unit :: rest => quotedChar (nextChar false unit rest).1 ++ quotedChars (nextChar false unit rest).2
termination_by units => units.length
decreasing_by
  have := nextChar_length false unit rest
  simp only [length_cons]
  omega

def quote (units : Utf16) : Utf16 := 0x22 :: (quotedChars units ++ [0x22])

end Literal

variable {c : Nat}

section Buffers

variable (mem : Memory) {P : StringBuffer → Utf16 → Prop} {b : StringBuffer} {pre : Utf16}

theorem putQuoted_tracks (tracks : Tracks mem P) (held : P b pre) (range : c ≤ 0x10FFFF) :
    ∃ b', putQuoted mem b c = some b' ∧ P b' (pre ++ quotedChar c) := by
  unfold putQuoted quotedChar
  cases short : shortEscape c with
  | some letter =>
    obtain ⟨b', put, held'⟩ := putc8_tracks mem tracks held (show 0x5c < 0x100 by decide)
    simp only [put, bind_eq_bind, bind_some]
    split
    · next error =>
        have stuck := tracks.stuck held' error [.ofNat 16 letter]
        exact ⟨b', rfl, by simpa using stuck⟩
    · have narrow : letter < 0x100 := by
        unfold shortEscape at short
        repeat' split at short
        all_goals
          cases short
          try omega
      obtain ⟨b'', put', held''⟩ := putc8_tracks mem tracks held' narrow
      exact ⟨b'', put', by simpa using held''⟩
  | none =>
    simp only
    split
    · have len := tracks.len held
      refine write8_tracks mem tracks held (fun byte there => ?_) ?_
      · have digit : ∀ n, hexDigit (n % 16) < 0x100 := by
          intro n
          unfold hexDigit
          split <;> omega
        revert byte
        simp [unicodeEscape, digit]
      · simp only [unicodeEscape, length_cons, length_nil]
        omega
    · exact putc_tracks mem tracks held range

theorem putQuotedChars_tracks (tracks : Tracks mem P) (units : Utf16) (held : P b pre) :
    ∃ b', putQuotedChars mem b units = some b' ∧ P b' (pre ++ quotedChars units) := by
  fun_induction quotedChars units generalizing b pre with
  | case1 =>
    rw [putQuotedChars, append_nil]
    exact ⟨b, rfl, held⟩
  | case2 unit rest ih =>
    have range : (nextChar false unit rest).1 ≤ 0x10FFFF := by
      rcases nextChar_cases false unit rest with plain | ⟨next, rest', rfl, hi, lo, pair⟩
      · rw [plain]
        omega
      · rw [pair]
        exact (fromSurrogate_bounds hi lo).2
    obtain ⟨b', put, held'⟩ := putQuoted_tracks mem tracks held range
    rw [putQuotedChars, put, bind_some, ← append_assoc]
    split
    · next error => exact ⟨b', rfl, tracks.stuck held' error _⟩
    · exact ih held'

end Buffers

section Reading

variable {t v : Utf16}

theorem hexFrom_unicodeEscape (small : c < 0x10000) :
    hexFrom 0 [.ofNat 16 (hexDigit (c / 0x1000 % 16)), .ofNat 16 (hexDigit (c / 0x100 % 16)),
      .ofNat 16 (hexDigit (c / 0x10 % 16)), .ofNat 16 (hexDigit (c % 16))] = some c := by
  have all : ∀ d < 16, fromHex (BitVec.ofNat 16 (hexDigit d)).toNat = some d := by decide
  simp only [hexFrom, all _ (Nat.mod_lt _ (show 0 < 16 by decide)), bind_some, some.injEq]
  omega

theorem chars_ecmaEscape {e u : Utf16} (escape : EcmaEscape e u) (chars : Chars ecma404 t v) :
    Chars ecma404 (0x5c :: (e ++ t)) (u ++ v) := .escape escape chars

theorem shortEscape_ecma {unit : BitVec 16} {letter : Nat} (short : shortEscape unit.toNat = some letter) :
    EcmaEscape [.ofNat 16 letter] [unit] := by
  have picks {n l : Nat} (small : n < 0x10000) (is : unit.toNat = n) (short : some l = some letter)
      (escape : EcmaEscape [.ofNat 16 l] [.ofNat 16 n]) : EcmaEscape [.ofNat 16 letter] [unit] := by
    cases short
    rwa [(toNat_eq small).mp is]
  unfold shortEscape at short
  split at short
  · next is => exact picks (by decide) is short .tab
  split at short
  · next is => exact picks (by decide) is short .return
  split at short
  · next is => exact picks (by decide) is short .newline
  split at short
  · next is => exact picks (by decide) is short .backspace
  split at short
  · next is => exact picks (by decide) is short .formFeed
  split at short
  · next is =>
      cases short
      rw [BitVec.ofNat_toNat, BitVec.setWidth_eq]
      rcases is with is | is
      · exact .same (.inl ((toNat_eq (by decide)).mp is))
      · exact .same (.inr (.inl ((toNat_eq (by decide)).mp is)))
  · cases short

theorem shortEscape_none (long : shortEscape c = none) : c ≠ 0x22 ∧ c ≠ 0x5c := by
  constructor
  all_goals
    rintro rfl
    simp [shortEscape] at long

theorem quotedChar_unit (unit : BitVec 16) (chars : Chars ecma404 t v) :
    Chars ecma404 (quotedChar unit.toNat ++ t) (unit :: v) := by
  have small := unit.isLt
  unfold quotedChar
  cases short : shortEscape unit.toNat with
  | some letter => exact chars_ecmaEscape (shortEscape_ecma short) chars
  | none =>
    obtain ⟨notQuote, notBackslash⟩ := shortEscape_none short
    simp only
    split
    · have escape := EcmaEscape.unicode rfl (hexFrom_unicodeEscape small)
      rw [BitVec.ofNat_toNat, BitVec.setWidth_eq] at escape
      exact chars_ecmaEscape escape chars
    · next plain =>
        rw [unitsOf_toNat]
        refine .char (by omega) ?_ ?_ chars
        · rintro rfl
          exact notQuote rfl
        · rintro rfl
          exact notBackslash rfl

theorem quotedChar_pair (beyond : 0x10000 ≤ c) : quotedChar c = unitsOf c := by
  have long : shortEscape c = none := by
    unfold shortEscape
    repeat rw [if_neg (by omega)]
  have plain : isSurrogate c = false := by
    rw [Bool.eq_false_iff, Ne, isSurrogate_iff]
    omega
  unfold quotedChar
  rw [long]
  simp only [plain]
  rw [if_neg (by simp; omega)]

theorem quotedChars_chars (units : Utf16) : Chars ecma404 (quotedChars units) units := by
  fun_induction quotedChars units with
  | case1 => exact .nil
  | case2 unit rest ih =>
    rcases nextChar_cons unit rest with plain | ⟨next, rest', rfl, low, high, pair, -, beyond, both⟩
    · rw [plain] at ih ⊢
      exact quotedChar_unit unit ih
    · rw [pair] at ih ⊢
      rw [quotedChar_pair beyond, both]
      exact chars_cons (by omega) (chars_cons (by omega) ih)

theorem quote_text (units : Utf16) : StringText ecma404 (quote units) units :=
  ⟨quotedChars units, quotedChars_chars units, rfl⟩

theorem length_quote (units : Utf16) : units.length + 2 ≤ (quote units).length := by
  have chars : Chars engine (quotedChars units) units :=
    (quotedChars_chars units).mono fun _ _ escape => EcmaEscape.engine escape
  have := chars.length_le
  simp only [quote, length_cons, length_append, length_nil]
  omega

end Reading

section Strings

variable (mem : Memory) {P : StringBuffer → Utf16 → Prop}

theorem toQuotedString_tracks (tracks : Tracks mem P) (str : JsString) (start : P (init mem (str.len + 2 : Nat)) []) :
    ∃ b, toQuotedString mem str = some b.endString ∧ P b (quote str.units) := by
  simp only [toQuotedString]
  split
  · next error => exact ⟨_, rfl, tracks.stuck start error _⟩
  obtain ⟨b₁, put₁, held₁⟩ := putc8_tracks mem tracks start (show 0x22 < 0x100 by decide)
  simp only [put₁, bind_eq_bind, bind_some]
  split
  · next error =>
      have stuck := tracks.stuck held₁ error (quotedChars str.units ++ [0x22])
      exact ⟨b₁, rfl, by simpa [quote] using stuck⟩
  obtain ⟨b₂, put₂, held₂⟩ := putQuotedChars_tracks mem tracks str.units held₁
  simp only [put₂, bind_some]
  split
  · next error =>
      have stuck := tracks.stuck held₂ error [0x22]
      exact ⟨b₂, rfl, by simpa [quote] using stuck⟩
  obtain ⟨b₃, put₃, held₃⟩ := putc8_tracks mem tracks held₂ (show 0x22 < 0x100 by decide)
  simp only [put₃, bind_some]
  exact ⟨b₃, rfl, by simpa [quote] using held₃⟩

theorem toQuotedString_makes (str : JsString) (short : str.units.length ≤ 2 ^ 30 - 1) :
    Makes (quote str.units) (toQuotedString mem str) := by
  have length := length_quote str.units
  exact makes_of_tracks mem (toQuotedString_tracks mem · str) (n := str.len + 2) (by unfold JsString.len; omega)
    fun large => by unfold JsString.len at large; omega

end Strings

end Json
