import Partikle.Json.Grammar

/-!
What the scanner makes of a text that was converted to UTF-8: each token is the text of a token
of the engine's grammar, and it takes all of it.
-/

namespace Json

open Text Strings Wrap List Option

abbrev encode (t : Utf16) : List Nat := encode16 false t

variable {n d : Nat} {e ds rest : Utf16} {lex : Lexicon}

section Ascii

variable {c : BitVec 16} {t : Utf16}

@[simp] theorem encode_nil : encode [] = [] := by
  unfold encode
  rw [encode16]

theorem encode_cons (low : c.toNat < 0x80) : encode (c :: t) = c.toNat :: encode t := by
  have plain : isHiSurrogate c.toNat = false := not_hi_of_lt (by omega)
  rw [encode, encode16_cons_of_not_hi false plain]
  simp [unicodeToUtf8, low]

theorem encode_cases (t : Utf16) :
    t = [] ∨ (∃ c rest, t = c :: rest ∧ c.toNat < 0x80 ∧ encode t = c.toNat :: encode rest) ∨
      ∃ c rest b p, t = c :: rest ∧ 0x80 ≤ c.toNat ∧ encode t = b :: p ∧ 0x80 ≤ b := by
  cases t with
  | nil => exact .inl rfl
  | cons c rest =>
    by_cases low : c.toNat < 0x80
    · exact .inr (.inl ⟨c, rest, rfl, low, encode_cons low⟩)
    · obtain ⟨b, p, is, high⟩ := encode16_first false (not_lt.mp low) rest
      exact .inr (.inr ⟨c, rest, b, p, rfl, not_lt.mp low, is, by omega⟩)

theorem toNat_eq (small : n < 2 ^ 16) : c.toNat = n ↔ c = .ofNat 16 n := by
  constructor
  · intro is
    rw [← is]
    simp
  · rintro rfl
    exact Nat.mod_eq_of_lt small

theorem headD_encode_of {f : Nat → Bool} (ascii : ∀ n, f n = true → n < 0x80) (zero : f 0 = false) (t : Utf16) :
    f ((encode t).headD 0) = true ↔ ∃ c rest, t = c :: rest ∧ f c.toNat = true := by
  rcases encode_cases t with rfl | ⟨c, rest, rfl, low, is⟩ | ⟨c, rest, b, p, rfl, high, is, beyond⟩
  · simp [zero]
  · rw [is, headD_cons]
    simp
  · rw [is, headD_cons]
    refine iff_of_false (fun holds => Nat.not_lt.mpr beyond (ascii b holds)) ?_
    rintro ⟨c', rest', same, holds⟩
    cases same
    exact Nat.not_lt.mpr high (ascii _ holds)

theorem headD_encode (positive : 0 < n) (small : n < 0x80) :
    (encode t).headD 0 = n ↔ ∃ rest, t = .ofNat 16 n :: rest := by
  have first := headD_encode_of (f := (· == n)) (fun m is => by simp at is; omega) (by simp; omega) t
  simp only [beq_iff_eq, toNat_eq (show n < 2 ^ 16 by omega)] at first
  rw [first]
  simp

end Ascii

section Hex

variable {acc m : Nat} {t : Utf16} {p : List Nat}

theorem fromHex_lt {c : Nat} (digit : fromHex c = some d) : c < 0x80 ∧ d < 16 := by
  unfold fromHex at digit
  repeat' split at digit
  all_goals try cases digit
  all_goals omega

theorem shift_or (small : d < 16) (acc : Nat) : (acc <<< 4) ||| d = 16 * acc + d := by
  rw [Nat.or_comm, or_of_lt acc 4 (by omega), Nat.shiftLeft_eq]
  omega

theorem le_hexFrom (value : hexFrom acc ds = some m) : acc ≤ m := by
  induction ds generalizing acc with
  | nil =>
    cases value
    exact le_rfl
  | cons c ds ih =>
    obtain ⟨d, -, value⟩ := bind_eq_some_iff.mp value
    have more := ih value
    omega

theorem hexDigits_sound (read : hexDigits n acc (encode t) = some (m, p)) :
    ∃ ds rest, t = ds ++ rest ∧ ds.length = n ∧ hexFrom acc ds = some m ∧ p = encode rest := by
  induction n generalizing acc t with
  | zero =>
    cases read
    exact ⟨[], t, rfl, rfl, rfl, rfl⟩
  | succ n ih =>
    unfold hexDigits at read
    cases digit : fromHex ((encode t).headD 0) with
    | none => simp only [digit, reduceCtorEq] at read
    | some d =>
      obtain ⟨ascii, small⟩ := fromHex_lt digit
      simp only [digit, shift_or small] at read
      rcases encode_cases t with rfl | ⟨c, rest, rfl, low, is⟩ | ⟨c, rest, b, p, rfl, high, is, beyond⟩
      · simp [fromHex] at digit
      · rw [is] at read digit
        obtain ⟨ds, rest', rfl, length, value, here⟩ := ih read
        refine ⟨c :: ds, rest', rfl, by simp [length], ?_, here⟩
        rw [headD_cons] at digit
        simp [hexFrom, digit, value]
      · rw [is, headD_cons] at ascii
        omega

theorem hexDigits_complete (value : hexFrom acc ds = some m) :
    hexDigits ds.length acc (encode (ds ++ rest)) = some (m, encode rest) := by
  induction ds generalizing acc with
  | nil =>
    cases value
    rfl
  | cons c ds ih =>
    obtain ⟨d, digit, value⟩ := bind_eq_some_iff.mp value
    obtain ⟨low, small⟩ := fromHex_lt digit
    rw [cons_append, encode_cons low]
    simp only [length_cons, hexDigits, headD_cons, tail_cons, digit, shift_or small]
    exact ih value

theorem bracedHex_sound (read : bracedHex acc (encode t) = some (m, p)) :
    ∃ ds rest, t = ds ++ 0x7d :: rest ∧ ds ≠ [] ∧ hexFrom acc ds = some m ∧ m ≤ 0x10FFFF ∧ p = encode rest := by
  induction t generalizing acc with
  | nil =>
    rw [encode_nil] at read
    cases read
  | cons c t ih =>
    rcases encode_cases (c :: t) with is | ⟨_, _, same, low, is⟩ | ⟨_, _, b, q, same, high, is, beyond⟩
    · cases is
    · cases same
      rw [is] at read
      unfold bracedHex at read
      cases digit : fromHex c.toNat with
      | none => simp [digit] at read
      | some d =>
        simp only [digit, shift_or (fromHex_lt digit).2] at read
        split at read
        · cases read
        · next range =>
            split at read
            · next close =>
                obtain ⟨rest, rfl⟩ := (headD_encode (by decide) (by decide)).mp close
                rw [encode_cons (by decide)] at read
                cases read
                refine ⟨[c], rest, rfl, by simp, ?_, by omega, rfl⟩
                simp [hexFrom, digit]
            · obtain ⟨ds, rest, rfl, -, value, range', here⟩ := ih read
              refine ⟨c :: ds, rest, rfl, by simp, ?_, range', here⟩
              simp [hexFrom, digit, value]
    · rw [is] at read
      unfold bracedHex at read
      cases digit : fromHex b with
      | none => simp [digit] at read
      | some d =>
        have ascii := (fromHex_lt digit).1
        omega

theorem bracedHex_complete (some' : ds ≠ []) (value : hexFrom acc ds = some m) (range : m ≤ 0x10FFFF) :
    bracedHex acc (encode (ds ++ 0x7d :: rest)) = some (m, encode rest) := by
  induction ds generalizing acc with
  | nil => exact absurd rfl some'
  | cons c ds ih =>
    obtain ⟨d, digit, value⟩ := bind_eq_some_iff.mp value
    obtain ⟨low, small⟩ := fromHex_lt digit
    have grown := le_hexFrom value
    rw [cons_append, encode_cons low]
    simp only [bracedHex, digit, shift_or small]
    rw [if_neg (by omega)]
    cases ds with
    | nil =>
      cases value
      rw [nil_append, encode_cons (by decide), headD_cons, if_pos (by decide), tail_cons]
    | cons c' ds =>
      obtain ⟨d', digit', -⟩ := bind_eq_some_iff.mp value
      have low' := (fromHex_lt digit').1
      have open' : ¬(encode (c' :: ds ++ 0x7d :: rest)).headD 0 = 0x7d := by
        rw [cons_append, encode_cons low', headD_cons]
        intro close
        rw [close] at digit'
        simp [fromHex] at digit'
      rw [if_neg open']
      exact ih (by simp) value

end Hex

section Pieces

def Piece.output : Piece → Utf16
  | .char c => unitsOf c
  | _ => []

def Piece.InRange : Piece → Prop
  | .char c => c ≤ 0x10FFFF
  | _ => True

variable {c : BitVec 16} {t v : Utf16} {piece : Piece} {p : List Nat}

theorem unitsOf_toNat (c : BitVec 16) : unitsOf c.toNat = [c] := by
  unfold unitsOf
  rw [if_neg (by omega)]
  simp

theorem nextChar_cons (c : BitVec 16) (rest : Utf16) :
    (nextChar false c rest = (c.toNat, rest)) ∨ ∃ next rest', rest = next :: rest' ∧ 0xDC00 ≤ next.toNat ∧
      0xD800 ≤ c.toNat ∧ nextChar false c rest = (fromSurrogate c.toNat next.toNat, rest') ∧
      fromSurrogate c.toNat next.toNat ≤ 0x10FFFF ∧ 0x10000 ≤ fromSurrogate c.toNat next.toNat ∧
      unitsOf (fromSurrogate c.toNat next.toNat) = [c, next] := by
  rcases nextChar_cases false c rest with plain | ⟨next, rest', rfl, hi, lo, pair⟩
  · exact .inl plain
  · have range := fromSurrogate_bounds hi lo
    obtain ⟨high, low⟩ := surrogates_fromSurrogate hi lo
    refine .inr ⟨next, rest', rfl, (isLoSurrogate_iff.mp lo).1, (isHiSurrogate_iff.mp hi).1, pair, range.2,
      range.1, ?_⟩
    unfold unitsOf
    rw [if_pos range.1, high, low]
    simp

theorem utf8Piece_encode (high : 0x80 ≤ c.toNat) (rest : Utf16) :
    utf8Piece (encode (c :: rest)) = .ok (.char (nextChar false c rest).1, encode (nextChar false c rest).2) := by
  have range : (nextChar false c rest).1 ≤ 0x10FFFF := by
    rcases nextChar_cons c rest with plain | ⟨next, rest', -, -, -, pair, range, -⟩
    · rw [plain]
      omega
    · rwa [pair]
  have length := length_unicodeToUtf8 range
  unfold utf8Piece
  rw [encode, encode16, unicodeFromUtf8_unicodeToUtf8 range _ (by split at length <;> rw [int32_of_small] <;> omega)]
  simp only
  rw [if_neg (by omega)]

variable {u : Utf16}

theorem Chars.append (first : Chars lex e u) (second : Chars lex t v) : Chars lex (e ++ t) (u ++ v) := by
  induction first with
  | nil => exact second
  | char printable notQuote notBackslash _ ih => exact .char printable notQuote notBackslash ih
  | escape escape _ ih =>
    rw [cons_append, append_assoc, append_assoc]
    exact .escape escape ih

theorem chars_cons (high : 0x80 ≤ c.toNat) (chars : Chars lex t v) : Chars lex (c :: t) (c :: v) := by
  refine .char (by omega) ?_ ?_ chars
  all_goals
    rintro rfl
    exact absurd high (by decide)

theorem chars_high (high : 0x80 ≤ c.toNat) (rest : Utf16) :
    ∃ units, unitsOf (nextChar false c rest).1 = units ∧ c :: rest = units ++ (nextChar false c rest).2 ∧
      Chars engine units units := by
  rcases nextChar_cons c rest with same | ⟨next, rest', rfl, low, -, pair, -, -, units⟩
  · refine ⟨[c], ?_, ?_, chars_cons high .nil⟩
    · rw [same, unitsOf_toNat]
    · rw [same]
      rfl
  · refine ⟨[c, next], ?_, ?_, chars_cons high (chars_cons (by omega) .nil)⟩
    · rw [pair, units]
    · rw [pair]
      rfl

theorem literal_high (high : 0x80 ≤ c.toNat) (notLine : c ≠ 0x2028) (notParagraph : c ≠ 0x2029) : Literal c := by
  have different : ∀ n : Nat, n < 0x80 → c ≠ .ofNat 16 n := by
    rintro n small rfl
    rw [BitVec.toNat_ofNat, Nat.mod_eq_of_lt (by omega)] at high
    omega
  refine ⟨?_, different 0x78 (by decide), different 0x75 (by decide), ?_, different 0x0a (by decide),
    different 0x0d (by decide), notLine, notParagraph⟩
  · unfold controlEscape
    repeat rw [if_neg (by omega)]
  · simp [isDigit]
    omega

theorem chars_escape (escape : EngineEscape e u) : Chars engine (0x5c :: e) u := by
  have chars : Chars engine (0x5c :: (e ++ [])) (u ++ []) := .escape escape .nil
  simpa using chars

theorem escapePiece_encode_high (high : 0x80 ≤ c.toNat) (rest : Utf16) :
    escapePiece (encode (c :: rest)) = .ok ((Piece.char (nextChar false c rest).1).escaped,
      encode (nextChar false c rest).2) := by
  obtain ⟨b, p, is, beyond⟩ := encode16_first false high rest
  have decoded := utf8Piece_encode high rest
  rw [encode, is] at decoded ⊢
  simp only [escapePiece]
  rw [if_neg (by omega), if_neg (by omega), if_neg (by omega), if_neg (by simp [isDigit]; omega),
    if_pos (by omega), decoded]

theorem escaped_nextChar (notLine : c ≠ 0x2028) (notParagraph : c ≠ 0x2029) (rest : Utf16) :
    (Piece.char (nextChar false c rest).1).escaped = .char (nextChar false c rest).1 := by
  simp only [Piece.escaped]
  rw [if_neg]
  rcases nextChar_cons c rest with same | ⟨next, rest', -, -, -, pair, -, wide, -⟩
  · rw [same]
    rintro (is | is)
    · exact notLine ((toNat_eq (by decide)).mp is)
    · exact notParagraph ((toNat_eq (by decide)).mp is)
  · rw [pair]
    omega

theorem escapePiece_separator (separator : c = 0x2028 ∨ c = 0x2029) (rest : Utf16) :
    escapePiece (encode (c :: rest)) = .ok (.skip, encode rest) := by
  rcases nextChar_cons c rest with same | ⟨next, rest', -, -, high, -⟩
  · rcases separator with rfl | rfl
    all_goals
      rw [escapePiece_encode_high (by decide), same]
      rfl
  · rcases separator with rfl | rfl <;> exact absurd high (by decide)

theorem escapePiece_high (high : 0x80 ≤ c.toNat) (rest : Utf16) :
    ∃ piece e rest', escapePiece (encode (c :: rest)) = .ok (piece, encode rest') ∧ piece ≠ .close ∧
      piece.InRange ∧ c :: rest = e ++ rest' ∧ Chars engine (0x5c :: e) piece.output := by
  by_cases separator : c = 0x2028 ∨ c = 0x2029
  · refine ⟨.skip, [c], rest, escapePiece_separator separator rest, by simp, trivial, rfl, ?_⟩
    exact chars_escape (.line (by rcases separator with rfl | rfl <;> simp))
  rw [not_or] at separator
  rw [escapePiece_encode_high high, escaped_nextChar separator.1 separator.2]
  have itself := chars_escape (.same (literal_high high separator.1 separator.2))
  rcases nextChar_cons c rest with same | ⟨next, rest', rfl, low, -, pair, range, -, units⟩
  · rw [same]
    refine ⟨.char c.toNat, [c], rest, rfl, by simp, show c.toNat ≤ 0x10FFFF by omega, rfl, ?_⟩
    rwa [Piece.output, unitsOf_toNat]
  · rw [pair]
    refine ⟨.char (fromSurrogate c.toNat next.toNat), [c, next], rest', rfl, by simp, range, rfl, ?_⟩
    rw [Piece.output, units]
    exact itself.append (chars_cons (by omega) .nil)

theorem unitsOf_of_lt (small : n < 0x10000) : unitsOf n = [.ofNat 16 n] := by
  unfold unitsOf
  rw [if_neg (by omega)]

theorem controlEscape_lt {m : Nat} (is : controlEscape n = some m) : m < 0x20 ∧ n < 0x80 := by
  unfold controlEscape at is
  repeat' split at is
  all_goals try cases is
  all_goals omega

theorem hexFrom_lt {acc : Nat} (value : hexFrom acc ds = some n) : n < 16 ^ ds.length * (acc + 1) := by
  induction ds generalizing acc with
  | nil =>
    cases value
    simp
  | cons c ds ih =>
    obtain ⟨d, digit, value⟩ := bind_eq_some_iff.mp value
    have small := (fromHex_lt digit).2
    calc n < 16 ^ ds.length * (16 * acc + d + 1) := ih value
      _ ≤ 16 ^ ds.length * (16 * (acc + 1)) := Nat.mul_le_mul_left _ (by omega)
      _ = 16 ^ (ds.length + 1) * (acc + 1) := by rw [Nat.pow_succ, Nat.mul_assoc]

theorem hexEscape_sound (letter : c = 0x78 ∨ c = 0x75) (read : hexEscape 1 c.toNat (encode t) = some (n, p)) :
    n ≤ 0x10FFFF ∧ ∃ e rest, t = e ++ rest ∧ p = encode rest ∧ EngineEscape (c :: e) (unitsOf n) := by
  unfold hexEscape at read
  by_cases brace : (encode t).headD 0 = 0x7b
  · obtain ⟨t, rfl⟩ := (headD_encode (by decide) (by decide)).mp brace
    rw [encode_cons (by decide), tail_cons] at read
    obtain ⟨ds, rest, rfl, nonempty, value, range, here⟩ := bracedHex_sound read
    refine ⟨range, 0x7b :: (ds ++ [0x7d]), rest, by simp, here, ?_⟩
    exact .braced letter nonempty value range
  · rw [if_neg (fun both => brace both.1)] at read
    obtain ⟨found, digits, is⟩ := map_eq_some_iff.mp read
    subst is
    obtain ⟨ds, rest, rfl, length, value, here⟩ := hexDigits_sound digits
    have bound := hexFrom_lt value
    have small : n < 0x10000 := by rcases letter with rfl | rfl <;> simp [length] at bound <;> omega
    refine ⟨by omega, ds, rest, rfl, here, ?_⟩
    rw [unitsOf_of_lt small]
    rcases letter with rfl | rfl
    · exact .two length value
    · exact .four length value

theorem escapePiece_sound (read : escapePiece (encode t) = .ok (piece, p)) :
    piece ≠ .close ∧ piece.InRange ∧ ∃ e rest, t = e ++ rest ∧ p = encode rest ∧
      Chars engine (0x5c :: e) piece.output := by
  rcases encode_cases t with rfl | ⟨c, rest, rfl, low, is⟩ | ⟨c, rest, b, q, rfl, high, is, beyond⟩
  · rw [encode_nil] at read
    cases read
  · have itself : ∀ {c : BitVec 16}, Literal c → Chars engine (0x5c :: [c]) (unitsOf c.toNat) := by
      intro c literal
      rw [unitsOf_toNat]
      exact chars_escape (.same literal)
    have small : Piece.InRange (.char c.toNat) := show c.toNat ≤ 0x10FFFF by omega
    have notSeparator : c ≠ 0x2028 ∧ c ≠ 0x2029 := by
      constructor <;> (rintro rfl; exact absurd low (by decide))
    rw [is] at read
    simp only [escapePiece] at read
    split at read
    · next plain =>
        cases read
        refine ⟨by simp, small, [c], rest, rfl, rfl, itself ?_⟩
        simp (disch := decide) only [toNat_eq] at plain
        rcases plain with rfl | rfl | rfl | rfl <;>
          exact ⟨by decide, by decide, by decide, by decide, by decide, by decide, by decide, by decide⟩
    split at read
    · next notPlain cr =>
        obtain rfl := (toNat_eq (by decide)).mp cr
        cases read
        refine ⟨by simp, trivial, ?_⟩
        split
        · next lf =>
            obtain ⟨rest, rfl⟩ := (headD_encode (by decide) (by decide)).mp lf
            exact ⟨[0x0d, 0x0a], rest, rfl, by rw [encode_cons (by decide)]; rfl, chars_escape (.line (by simp))⟩
        · exact ⟨[0x0d], rest, rfl, rfl, chars_escape (.line (by simp))⟩
    split at read
    · next lf =>
        obtain rfl := (toNat_eq (by decide)).mp lf
        cases read
        exact ⟨by simp, trivial, [0x0a], rest, rfl, rfl, chars_escape (.line (by simp))⟩
    split at read
    · cases read
    next notCr notLf notDigit =>
    split at read
    · omega
    simp only [lreParseEscape] at read
    cases control : controlEscape c.toNat with
    | some n =>
      have bound := controlEscape_lt control
      simp only [control] at read
      cases read
      refine ⟨by simp, show n ≤ 0x10FFFF by omega, [c], rest, rfl, rfl, ?_⟩
      rw [Piece.output, unitsOf_of_lt (by omega)]
      exact chars_escape (.control control)
    | none =>
      simp only [control] at read
      by_cases letter : c.toNat = 0x78 ∨ c.toNat = 0x75
      · rw [if_pos letter] at read
        rw [toNat_eq (by decide), toNat_eq (by decide)] at letter
        cases digits : hexEscape 1 c.toNat (encode rest) with
        | none => simp [digits, Escape.ofOption] at read
        | some found =>
          simp only [digits, Escape.ofOption] at read
          cases read
          obtain ⟨range, e, rest', rfl, here, escape⟩ := hexEscape_sound letter digits
          exact ⟨by simp, range, c :: e, rest', rfl, here, chars_escape escape⟩
      · rw [if_neg letter] at read
        have notOctal : ¬(0x30 ≤ c.toNat ∧ c.toNat ≤ 0x37) := by
          simp [isDigit] at notDigit
          omega
        rw [if_neg notOctal] at read
        cases read
        refine ⟨by simp, small, [c], rest, rfl, rfl, itself ?_⟩
        rw [not_or, toNat_eq (by decide), toNat_eq (by decide)] at letter
        rw [toNat_eq (by decide)] at notCr notLf
        exact ⟨control, letter.1, letter.2, by simpa using notDigit, notLf, notCr, notSeparator⟩
  · obtain ⟨piece', e, rest', read', notClose, range, split, chars⟩ := escapePiece_high high rest
    rw [read'] at read
    cases read
    exact ⟨notClose, range, e, rest', split, rfl, chars⟩

theorem nextPiece_sound (read : nextPiece (encode t) = .ok (piece, p)) :
    piece.InRange ∧ ((piece = .close ∧ ∃ rest, t = 0x22 :: rest ∧ p = encode rest) ∨
      piece ≠ .close ∧ ∃ e rest, t = e ++ rest ∧ p = encode rest ∧ Chars engine e piece.output) := by
  rcases encode_cases t with rfl | ⟨c, rest, rfl, low, is⟩ | ⟨c, rest, b, q, rfl, high, is, beyond⟩
  · rw [encode_nil] at read
    cases read
  · rw [is] at read
    simp only [nextPiece] at read
    split at read
    · cases read
    next printable =>
    split at read
    · next quote =>
        obtain rfl := (toNat_eq (by decide)).mp quote
        cases read
        exact ⟨trivial, .inl ⟨rfl, rest, rfl, rfl⟩⟩
    next notQuote =>
    split at read
    · next backslash =>
        obtain rfl := (toNat_eq (by decide)).mp backslash
        obtain ⟨notClose, range, e, rest', rfl, here, chars⟩ := escapePiece_sound read
        exact ⟨range, .inr ⟨notClose, 0x5c :: e, rest', rfl, here, chars⟩⟩
    next notBackslash =>
    rw [if_neg (by omega)] at read
    cases read
    rw [toNat_eq (by decide)] at notQuote notBackslash
    refine ⟨show c.toNat ≤ 0x10FFFF by omega, .inr ⟨by simp, [c], rest, rfl, rfl, ?_⟩⟩
    rw [Piece.output, unitsOf_toNat]
    exact .char (by omega) notQuote notBackslash .nil
  · have decoded := utf8Piece_encode high rest
    obtain ⟨units, same, split, chars⟩ := chars_high high rest
    rw [is] at read decoded
    simp only [nextPiece] at read
    rw [if_neg (by omega), if_neg (by omega), if_neg (by omega), if_pos (by omega), decoded] at read
    cases read
    refine ⟨?_, .inr ⟨by simp, units, _, split, rfl, by rwa [Piece.output, same]⟩⟩
    rcases nextChar_cons c rest with plain | ⟨next, rest', -, -, -, pair, range, -⟩
    · rw [plain]
      exact show c.toNat ≤ 0x10FFFF by omega
    · rwa [pair]

theorem Chars.high (chars : Chars engine t v) (c : BitVec 16) (rest : Utf16) :
    ∃ t' v', nextChar false c (t ++ 0x22 :: rest) = ((nextChar false c (t ++ 0x22 :: rest)).1, t' ++ 0x22 :: rest) ∧
      unitsOf (nextChar false c (t ++ 0x22 :: rest)).1 ++ v' = c :: v ∧ Chars engine t' v' ∧ t'.length ≤ t.length := by
  rcases nextChar_cons c (t ++ 0x22 :: rest) with plain | ⟨next, rest', split, low, -, pair, -, -, units⟩
  · rw [plain]
    exact ⟨t, v, rfl, by rw [unitsOf_toNat]; rfl, chars, le_rfl⟩
  · rw [pair]
    simp only [units]
    cases chars with
    | nil =>
      rw [nil_append, cons.injEq] at split
      rw [← split.1] at low
      exact absurd low (by decide)
    | char _ _ _ chars =>
      obtain ⟨rfl, rfl⟩ := split
      exact ⟨_, _, rfl, rfl, chars, by simp⟩
    | escape _ _ =>
      rw [cons_append, cons.injEq] at split
      rw [← split.1] at low
      exact absurd low (by decide)

theorem escapePiece_ascii (low : c.toNat < 0x80) (notPlain : ¬(c = 0 ∨ c = 0x27 ∨ c = 0x22 ∨ c = 0x5c))
    (notCr : c ≠ 0x0d) (notLf : c ≠ 0x0a) (notDigit : isDigit c.toNat = false) (rest : Utf16) :
    escapePiece (encode (c :: rest)) =
      match lreParseEscape 1 (c.toNat :: encode rest) with
      | .malformed => .error .malformedEscape
      | .unknown => .ok (.char c.toNat, encode rest)
      | .char c rest => .ok (.char c, rest) := by
  have numbers : ¬(c.toNat = 0 ∨ c.toNat = 0x27 ∨ c.toNat = 0x22 ∨ c.toNat = 0x5c) := by
    simp (disch := decide) only [toNat_eq]
    exact notPlain
  rw [encode_cons low]
  simp only [escapePiece]
  rw [if_neg numbers, if_neg (by rwa [toNat_eq (by decide)]),
    if_neg (by rwa [toNat_eq (by decide)]), if_neg (by simp [notDigit])]
  apply (if_neg (by omega)).trans
  cases lreParseEscape 1 (c.toNat :: encode rest) <;> rfl

theorem escapePiece_literal (literal : Literal c) (low : c.toNat < 0x80) (rest : Utf16) :
    escapePiece (encode (c :: rest)) = .ok (.char c.toNat, encode rest) := by
  obtain ⟨notControl, notX, notU, notDigit, notLf, notCr, -, -⟩ := literal
  by_cases plain : c = 0 ∨ c = 0x27 ∨ c = 0x22 ∨ c = 0x5c
  · rcases plain with rfl | rfl | rfl | rfl
    all_goals
      rw [encode_cons (by decide)]
      rfl
  · have notLetter : ¬(c.toNat = 0x78 ∨ c.toNat = 0x75) := by
      rw [toNat_eq (by decide), toNat_eq (by decide)]
      exact not_or.mpr ⟨notX, notU⟩
    have notOctal : ¬(0x30 ≤ c.toNat ∧ c.toNat ≤ 0x37) := by
      simp [isDigit] at notDigit
      omega
    rw [escapePiece_ascii low plain notCr notLf notDigit]
    simp [lreParseEscape, notControl, if_neg notLetter, if_neg notOctal]

theorem escapePiece_control (control : controlEscape c.toNat = some n)
    (rest : Utf16) : escapePiece (encode (c :: rest)) = .ok (.char n, encode rest) := by
  have letters : c = 0x62 ∨ c = 0x66 ∨ c = 0x6e ∨ c = 0x72 ∨ c = 0x74 ∨ c = 0x76 := by
    by_contra none
    unfold controlEscape at control
    simp (disch := decide) only [toNat_eq] at control
    simp_all
  rcases letters with rfl | rfl | rfl | rfl | rfl | rfl
  all_goals
    cases control
    rw [escapePiece_ascii (by decide) (by decide) (by decide) (by decide) (by decide)]
    rfl

theorem escapePiece_hex (letter : c = 0x78 ∨ c = 0x75)
    (digits : hexEscape 1 c.toNat (encode t) = some (n, encode rest)) :
    escapePiece (encode (c :: t)) = .ok (.char n, encode rest) := by
  have read : lreParseEscape 1 (c.toNat :: encode t) = .ofOption (hexEscape 1 c.toNat (encode t)) := by
    rcases letter with rfl | rfl <;> rfl
  rw [digits] at read
  rcases letter with rfl | rfl
  all_goals
    rw [escapePiece_ascii (by decide) (by decide) (by decide) (by decide) (by decide), read]
    rfl

theorem hexEscape_digits {c : Nat} (length : ds.length = if c = 0x78 then 2 else 4) (value : hexFrom 0 ds = some n) :
    hexEscape 1 c (encode (ds ++ rest)) = some (n, encode rest) := by
  unfold hexEscape
  have notBrace : ¬((encode (ds ++ rest)).headD 0 = 0x7b ∧ 1 ≠ 0) := by
    rintro ⟨brace, -⟩
    cases ds with
    | nil => split at length <;> cases length
    | cons c ds =>
      obtain ⟨d, digit, -⟩ := bind_eq_some_iff.mp value
      rw [cons_append, encode_cons (fromHex_lt digit).1, headD_cons] at brace
      rw [brace] at digit
      simp [fromHex] at digit
  rw [if_neg notBrace, ← length, hexDigits_complete value]
  rfl

theorem escapePiece_complete (escape : EngineEscape e u) (chars : Chars engine t v) (rest : Utf16) :
    ∃ piece t' v', escapePiece (encode (e ++ t ++ 0x22 :: rest)) = .ok (piece, encode (t' ++ 0x22 :: rest)) ∧
      piece ≠ .close ∧ piece.output ++ v' = u ++ v ∧ Chars engine t' v' ∧ t'.length ≤ t.length := by
  rw [append_assoc]
  have direct : ∀ piece : Piece, escapePiece (encode (e ++ (t ++ 0x22 :: rest))) =
      .ok (piece, encode (t ++ 0x22 :: rest)) → piece ≠ .close → piece.output = u →
      ∃ piece t' v', escapePiece (encode (e ++ (t ++ 0x22 :: rest))) = .ok (piece, encode (t' ++ 0x22 :: rest)) ∧
        piece ≠ .close ∧ piece.output ++ v' = u ++ v ∧ Chars engine t' v' ∧ t'.length ≤ t.length := by
    intro piece read notClose output
    exact ⟨piece, t, v, read, notClose, by rw [output], chars, le_rfl⟩
  cases escape with
  | @same c literal =>
    by_cases low : c.toNat < 0x80
    · exact direct _ (escapePiece_literal literal low _) (by simp) (unitsOf_toNat c)
    · obtain ⟨t', v', split, units, chars', shorter⟩ := chars.high c rest
      refine ⟨.char (nextChar false c (t ++ 0x22 :: rest)).1, t', v', ?_, by simp, units, chars', shorter⟩
      rw [singleton_append, escapePiece_encode_high (not_lt.mp low),
        escaped_nextChar literal.2.2.2.2.2.2.1 literal.2.2.2.2.2.2.2]
      rw [split]
  | control control =>
    have bound := controlEscape_lt control
    exact direct _ (escapePiece_control control _) (by simp) (unitsOf_of_lt (by omega))
  | line is =>
    rcases is with rfl | rfl | rfl | separator
    · exact direct .skip (by rw [singleton_append, encode_cons (by decide)]; rfl) (by simp) rfl
    · refine direct .skip ?_ (by simp) rfl
      have notLf : ¬(encode (t ++ 0x22 :: rest)).headD 0 = 0x0a := by
        rw [headD_encode (by decide) (by decide)]
        rintro ⟨rest', split⟩
        cases chars with
        | nil | escape _ _ => exact absurd (cons.inj split).1 (by decide)
        | char printable _ _ _ =>
          rw [(cons.inj split).1] at printable
          exact absurd printable (by decide)
      rw [singleton_append, encode_cons (by decide)]
      simp only [escapePiece]
      rw [if_neg (by decide), if_pos (by decide), if_neg notLf]
    · refine direct .skip ?_ (by simp) rfl
      rw [cons_append, singleton_append, encode_cons (by decide), encode_cons (by decide)]
      rfl
    · refine direct .skip ?_ (by simp) rfl
      rcases separator with rfl | rfl
      · exact escapePiece_separator (.inl rfl) _
      · exact escapePiece_separator (.inr rfl) _
  | @two ds n length value =>
    have small := hexFrom_lt value
    rw [length] at small
    exact direct _ (escapePiece_hex (.inl rfl) (hexEscape_digits length value)) (by simp)
      (unitsOf_of_lt (by omega))
  | @four ds n length value =>
    have small := hexFrom_lt value
    rw [length] at small
    exact direct _ (escapePiece_hex (.inr rfl) (hexEscape_digits length value)) (by simp)
      (unitsOf_of_lt (by omega))
  | @braced c ds n letter nonempty value range =>
    refine direct (.char n) ?_ (by simp) rfl
    have text : c :: 0x7b :: (ds ++ [0x7d]) ++ (t ++ 0x22 :: rest) =
        c :: 0x7b :: (ds ++ 0x7d :: (t ++ 0x22 :: rest)) := by simp
    rw [text]
    apply escapePiece_hex letter
    unfold hexEscape
    rw [encode_cons (by decide), if_pos ⟨rfl, by decide⟩, tail_cons]
    exact bracedHex_complete nonempty value range

theorem nextPiece_complete (chars : Chars engine t v) (rest : Utf16) : t = [] ∧ v = [] ∨ ∃ piece t' v',
      nextPiece (encode (t ++ 0x22 :: rest)) = .ok (piece, encode (t' ++ 0x22 :: rest)) ∧ piece ≠ .close ∧
      piece.output ++ v' = v ∧ Chars engine t' v' ∧ t'.length < t.length := by
  cases chars with
  | nil => exact .inl ⟨rfl, rfl⟩
  | @char c t v printable notQuote notBackslash chars =>
    refine .inr ?_
    by_cases low : c.toNat < 0x80
    · refine ⟨.char c.toNat, t, v, ?_, by simp, by rw [Piece.output, unitsOf_toNat]; rfl, chars, by simp⟩
      rw [cons_append, encode_cons low]
      simp only [nextPiece]
      rw [if_neg (by omega), if_neg (by rwa [toNat_eq (by decide)]),
        if_neg (by rwa [toNat_eq (by decide)]), if_neg (by omega)]
    · have beyond : 0x80 ≤ c.toNat := by omega
      obtain ⟨t', v', split, units, chars', shorter⟩ := chars.high c rest
      have decoded := utf8Piece_encode beyond (t ++ 0x22 :: rest)
      obtain ⟨b, p, is, first⟩ := encode16_first false beyond (t ++ 0x22 :: rest)
      refine ⟨.char (nextChar false c (t ++ 0x22 :: rest)).1, t', v', ?_, by simp, units, chars', ?_⟩
      · rw [cons_append]
        rw [encode, is] at decoded ⊢
        simp only [nextPiece]
        rw [if_neg (by omega), if_neg (by omega), if_neg (by omega), if_pos (by omega), decoded, split]
      · rw [length_cons]
        omega
  | escape escape chars =>
    obtain ⟨piece, t', v', read, notClose, output, chars', shorter⟩ := escapePiece_complete escape chars rest
    refine .inr ⟨piece, t', v', ?_, notClose, output, chars', ?_⟩
    · rwa [cons_append, encode_cons (by decide)]
    · simp only [length_cons, length_append]
      omega

end Pieces

section StringTokens

variable (mem : Memory) {s s' : StringBuffer} {pre t v : Utf16} {p p' : List Nat} {c : Nat}

theorem jsParseString_eq : jsParseString mem s p = match nextPiece p with
    | .error error => some (.error error)
    | .ok (.close, rest) =>
      match s.endString with
      | .error error => some (.error (.exception error))
      | .ok str => some (.ok (str.units, rest))
    | .ok (.skip, rest) => jsParseString mem s rest
    | .ok (.char c, rest) =>
      match s.putc mem c with
      | none => none
      | some s =>
        match s.errorStatus with
        | some error => some (.error (.exception error))
        | none => jsParseString mem s rest := by
  rw [jsParseString]
  split <;> exact ‹nextPiece p = _› ▸ rfl

theorem jsParseString_round {piece : Piece} (given : s.Given pre) (read : nextPiece p = .ok (piece, p'))
    (notClose : piece ≠ .close) (range : piece.InRange) :
    (∃ s', s'.Given (pre ++ piece.output) ∧ jsParseString mem s p = jsParseString mem s' p') ∨
      2 ^ 30 - 1 < (pre ++ piece.output).length ∧ ∃ error, jsParseString mem s p = some (.error error) := by
  cases piece with
  | close => exact absurd rfl notClose
  | skip => exact .inl ⟨s, by simpa [Piece.output] using given, by rw [jsParseString_eq, read]⟩
  | char c =>
    obtain ⟨s', put, given'⟩ := StringBuffer.putc_tracks mem (StringBuffer.given_tracks mem) given range
    cases status : s'.errorStatus with
    | none => exact .inl ⟨s', given', by simp [jsParseString_eq mem (s := s), read, put, status]⟩
    | some error =>
      have full := (given'.failed (by rw [status]; rfl)).2
      exact .inr ⟨full, _, by simp [jsParseString_eq mem (s := s), read, put, status]; rfl⟩

theorem jsParseString_complete (given : s.Given pre) (chars : Chars engine t v)
    (short : pre.length + v.length ≤ 2 ^ 30 - 1) (rest : Utf16) :
    jsParseString mem s (encode (t ++ 0x22 :: rest)) = some (.ok (pre ++ v, encode rest)) := by
  induction h : t.length using Nat.strongRecOn generalizing s pre t v with
  | ind n ih =>
    rcases nextPiece_complete chars rest with ⟨rfl, rfl⟩ |
      ⟨piece, t', v', read, notClose, rfl, chars', shorter⟩
    · have read : nextPiece (encode ([] ++ 0x22 :: rest)) = .ok (.close, encode rest) := by
        rw [nil_append, encode_cons (by decide)]
        rfl
      rw [jsParseString_eq, read, (StringBuffer.endString_given given).1 (by simpa using short)]
      simp
    · rw [length_append] at short
      have range := (nextPiece_sound read).1
      rcases jsParseString_round mem given read notClose range with ⟨s', given', same⟩ | ⟨long, -⟩
      · rw [same, ih t'.length (h ▸ shorter) given' chars' (by rw [length_append]; omega) rfl, append_assoc]
      · rw [length_append] at long
        omega

theorem jsParseString_sound {out : Utf16} (given : s.Given pre)
    (read : jsParseString mem s (encode t) = some (.ok (out, p))) :
    ∃ body v rest, t = body ++ 0x22 :: rest ∧ Chars engine body v ∧ out = pre ++ v ∧ p = encode rest := by
  induction h : t.length using Nat.strongRecOn generalizing s pre t with
  | ind n ih =>
    cases round : nextPiece (encode t) with
    | error error =>
      simp [jsParseString_eq, round] at read
    | ok found =>
      obtain ⟨piece, p'⟩ := found
      obtain ⟨range, ⟨rfl, rest, rfl, rfl⟩ | ⟨notClose, e, rest, rfl, rfl, chars⟩⟩ := nextPiece_sound round
      · obtain ⟨short, long⟩ := StringBuffer.endString_given given
        by_cases fits : pre.length ≤ 2 ^ 30 - 1
        · rw [jsParseString_eq, round, short fits] at read
          cases read
          exact ⟨[], [], rest, rfl, .nil, by simp, rfl⟩
        · obtain ⟨error, fails⟩ := long (by omega)
          rw [jsParseString_eq, round, fails] at read
          cases read
      · have shorter : rest.length < (e ++ rest).length := by
          have consumed := nextPiece_length round
          by_contra same
          have empty : e = [] := by
            rw [length_append] at same
            exact length_eq_zero_iff.mp (by omega)
          rw [empty, nil_append] at consumed
          exact absurd consumed (Nat.lt_irrefl _)
        rcases jsParseString_round mem given round notClose range with ⟨s', given', same⟩ | ⟨-, error, fails⟩
        · rw [same] at read
          obtain ⟨body, v, rest', rfl, chars', rfl, here⟩ := ih rest.length (h ▸ shorter) given' read rfl
          exact ⟨e ++ body, piece.output ++ v, rest', by simp, chars.append chars', by simp, here⟩
        · simp [fails] at read

end StringTokens

end Json
