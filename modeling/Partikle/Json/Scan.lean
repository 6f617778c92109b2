import Partikle.Text.Append

/-!
The tokens of a JSON text. A pointer into the text is the list of bytes from there to the end;
behind the last byte there is a NUL. A write behind the end of a block has no result.
-/

namespace Json

open Text Strings List

inductive ParseError where
  | stackOverflow
  | invalidCharacter
  | endOfString
  | malformedEscape
  | invalidUtf8
  | unexpectedCharacter
  | expectingPropertyName
  | expecting (tok : Nat)
  | endOfInput
  | unexpectedToken
  | dataAtEnd
  | exception (error : Exception)
deriving DecidableEq, Repr

abbrev Result (α : Type) := Option (Except ParseError α)

def Result.bind {α β : Type} : Result α → (α → Result β) → Result β
  | none, _ => none
  | some (.error error), _ => some (.error error)
  | some (.ok value), next => next value

section Escapes

def isDigit (c : Nat) : Bool := 0x30 ≤ c && c ≤ 0x39

def fromHex (c : Nat) : Option Nat :=
  if 0x30 ≤ c ∧ c ≤ 0x39 then some (c - 0x30)
  else if 0x41 ≤ c ∧ c ≤ 0x46 then some (c - 0x41 + 10)
  else if 0x61 ≤ c ∧ c ≤ 0x66 then some (c - 0x61 + 10)
  else none

def hexDigits : Nat → Nat → List Nat → Option (Nat × List Nat)
  | 0, c, p => some (c, p)
  | n + 1, c, p =>
    match fromHex (p.headD 0) with
    | none => none
    | some h => hexDigits n ((c <<< 4) ||| h) p.tail

def bracedHex (c : Nat) : List Nat → Option (Nat × List Nat)
  | [] => none
  | b :: p =>
    match fromHex b with
    | none => none
    | some h =>
      let c := (c <<< 4) ||| h
      if c > 0x10FFFF then none
      else if p.headD 0 = 0x7d then some (c, p.tail)
      else bracedHex c p

inductive Escape where
  | malformed
  | unknown
  | char (c : Nat) (rest : List Nat)

def Escape.ofOption : Option (Nat × List Nat) → Escape
  | none => .malformed
  | some (c, rest) => .char c rest

def joinEscapes (c : Nat) (p : List Nat) : Nat × List Nat :=
  match p with
  | 0x5c :: 0x75 :: p' =>
    match hexDigits 4 0 p' with
    | some (c1, rest) => if isHiSurrogate c ∧ isLoSurrogate c1 then (fromSurrogate c c1, rest) else (c, p)
    | none => (c, p)
  | _ => (c, p)

def octalDigit (p : List Nat) : Option Nat :=
  if 0x30 ≤ p.headD 0 ∧ p.headD 0 ≤ 0x37 then some (p.headD 0 - 0x30) else none

def legacyOctal (c : Nat) (p : List Nat) : Nat × List Nat :=
  match octalDigit p with
  | none => (c, p)
  | some v =>
    let c := (c <<< 3) ||| v
    if c ≥ 32 then (c, p.tail)
    else
      match octalDigit p.tail with
      | none => (c, p.tail)
      | some v => ((c <<< 3) ||| v, p.tail.tail)

def controlEscape (c : Nat) : Option Nat :=
  if c = 0x62 then some 0x08
  else if c = 0x66 then some 0x0c
  else if c = 0x6e then some 0x0a
  else if c = 0x72 then some 0x0d
  else if c = 0x74 then some 0x09
  else if c = 0x76 then some 0x0b
  else none

def hexEscape (allowUtf16 c : Nat) (p : List Nat) : Option (Nat × List Nat) :=
  if p.headD 0 = 0x7b ∧ allowUtf16 ≠ 0 then bracedHex 0 p.tail
  else
    (hexDigits (if c = 0x78 then 2 else 4) 0 p).map fun r => if allowUtf16 = 2 then joinEscapes r.1 r.2 else r

def octalEscape (allowUtf16 c : Nat) (p : List Nat) : Option (Nat × List Nat) :=
  if allowUtf16 = 2 then if c ≠ 0x30 ∨ isDigit (p.headD 0) then none else some (0, p)
  else some (legacyOctal (c - 0x30) p)

def lreParseEscape (allowUtf16 : Nat) : List Nat → Escape
  | [] => .unknown
  | c :: p =>
    match controlEscape c with
    | some c => .char c p
    | none =>
      if c = 0x78 ∨ c = 0x75 then .ofOption (hexEscape allowUtf16 c p)
      else if 0x30 ≤ c ∧ c ≤ 0x37 then .ofOption (octalEscape allowUtf16 c p)
      else .unknown

end Escapes

section Strings

inductive Piece where
  | close
  | char (c : Nat)
  | skip

def utf8Piece (p : List Nat) : Except ParseError (Piece × List Nat) :=
  match unicodeFromUtf8 p 6 with
  | none => .error .invalidUtf8
  | some (c, next) => if c > 0x10FFFF then .error .invalidUtf8 else .ok (.char c, next)

def Piece.escaped : Piece → Piece
  | .char c => if c = 0x2028 ∨ c = 0x2029 then .skip else .char c
  | piece => piece

def escapePiece : List Nat → Except ParseError (Piece × List Nat)
  | [] => .error .endOfString
  | c :: p =>
    if c = 0 ∨ c = 0x27 ∨ c = 0x22 ∨ c = 0x5c then .ok (.char c, p)
    else if c = 0x0d then .ok (.skip, if p.headD 0 = 0x0a then p.tail else p)
    else if c = 0x0a then .ok (.skip, p)
    else if isDigit c then .error .malformedEscape
    else if 0x80 ≤ c then
      match utf8Piece (c :: p) with
      | .error error => .error error
      | .ok (piece, next) => .ok (piece.escaped, next)
    else
      match lreParseEscape 1 (c :: p) with
      | .malformed => .error .malformedEscape
      | .unknown => .ok (.char c, p)
      | .char c rest => .ok (.char c, rest)

def nextPiece : List Nat → Except ParseError (Piece × List Nat)
  | [] => .error .endOfString
  | c :: p =>
    if c < 0x20 then .error .invalidCharacter
    else if c = 0x22 then .ok (.close, p)
    else if c = 0x5c then escapePiece p
    else if 0x80 ≤ c then utf8Piece (c :: p)
    else .ok (.char c, p)

variable {n c c' : Nat} {p rest : List Nat} {piece : Piece}

theorem hexDigits_length (read : hexDigits n c p = some (c', rest)) : rest.length ≤ p.length := by
  induction n generalizing c p with
  | zero =>
    cases read
    exact le_rfl
  | succ n ih =>
    unfold hexDigits at read
    split at read
    · cases read
    · have shorter := ih read
      simp only [length_tail] at shorter
      omega

theorem bracedHex_length (read : bracedHex c p = some (c', rest)) : rest.length ≤ p.length := by
  induction p generalizing c with
  | nil => cases read
  | cons b p ih =>
    unfold bracedHex at read
    split at read
    · cases read
    · simp only at read
      split at read
      · cases read
      · split at read
        · cases read
          simp only [length_tail, length_cons]
          omega
        · have shorter := ih read
          simp only [length_cons]
          omega

theorem joinEscapes_length (c : Nat) (p : List Nat) : (joinEscapes c p).2.length ≤ p.length := by
  unfold joinEscapes
  split
  · next p' =>
      split
      · next c1 rest read =>
          have shorter := hexDigits_length read
          split <;> simp only [length_cons] <;> omega
      · exact le_rfl
  · exact le_rfl

theorem legacyOctal_length (c : Nat) (p : List Nat) : (legacyOctal c p).2.length ≤ p.length := by
  unfold legacyOctal
  split
  · exact le_rfl
  · simp only
    split
    · simp
    · split <;> simp only [length_tail] <;> omega

theorem hexEscape_length (read : hexEscape n c p = some (c', rest)) : rest.length ≤ p.length := by
  unfold hexEscape at read
  split at read
  · have shorter := bracedHex_length read
    simp only [length_tail] at shorter
    omega
  · obtain ⟨found, digits, is⟩ := Option.map_eq_some_iff.mp read
    have shorter : found.2.length ≤ _ := hexDigits_length digits
    split at is
    · have joined := joinEscapes_length found.1 found.2
      rw [is] at joined
      exact joined.trans shorter
    · rwa [is] at shorter

theorem octalEscape_length (read : octalEscape n c p = some (c', rest)) : rest.length ≤ p.length := by
  unfold octalEscape at read
  split at read
  · split at read
    · cases read
    · cases read
      exact le_rfl
  · have shorter := legacyOctal_length (c - 0x30) p
    rwa [Option.some.inj read] at shorter

theorem Escape.ofOption_eq_char {found : Option (Nat × List Nat)} :
    Escape.ofOption found = .char c rest ↔ found = some (c, rest) := by
  cases found with
  | none => simp [ofOption]
  | some found => simp [ofOption, Prod.ext_iff]

theorem lreParseEscape_length {b : Nat} (read : lreParseEscape n (b :: p) = .char c rest) : rest.length ≤ p.length := by
  simp only [lreParseEscape] at read
  split at read
  · cases read
    exact le_rfl
  · split at read
    · exact hexEscape_length (Escape.ofOption_eq_char.mp read)
    · split at read
      · exact octalEscape_length (Escape.ofOption_eq_char.mp read)
      · cases read

theorem utf8Piece_length {b : Nat} (read : utf8Piece (b :: p) = .ok (piece, rest)) : rest.length ≤ p.length := by
  unfold utf8Piece at read
  split at read
  · cases read
  · next decoded =>
      split at read
      · cases read
      · cases read
        exact unicodeFromUtf8_length decoded

theorem escapePiece_length (read : escapePiece p = .ok (piece, rest)) : rest.length < p.length := by
  cases p with
  | nil => cases read
  | cons c p =>
    rw [length_cons, Nat.lt_succ_iff]
    simp only [escapePiece] at read
    repeat' split at read
    all_goals try cases read
    all_goals try exact le_rfl
    · simp
    · next decoded => exact utf8Piece_length decoded
    · next decoded => exact lreParseEscape_length decoded

theorem nextPiece_length (read : nextPiece p = .ok (piece, rest)) : rest.length < p.length := by
  cases p with
  | nil => cases read
  | cons c p =>
    rw [length_cons, Nat.lt_succ_iff]
    simp only [nextPiece] at read
    repeat' split at read
    all_goals try cases read
    all_goals try exact le_rfl
    · exact Nat.le_of_lt (escapePiece_length read)
    · exact utf8Piece_length read

/-- The string behind a quotation mark. A round that puts nothing goes on with the same buffer. -/
def jsParseString (mem : Memory) (s : StringBuffer) (p : List Nat) : Result (Utf16 × List Nat) :=
  match _round : nextPiece p with
  | .error error => some (.error error)
  | .ok (.close, rest) =>
    match s.endString with
    | .error error => some (.error (.exception error))
    | .ok str => some (.ok (str.units, rest))
  | .ok (.skip, rest) => jsParseString mem s rest
  | .ok (.char c, rest) =>
    match s.putc mem c with
    | none => none
    | some s =>
      match s.errorStatus with
      | some error => some (.error (.exception error))
      | none => jsParseString mem s rest
termination_by p.length
decreasing_by
  · exact nextPiece_length _round
  · exact nextPiece_length _round

end Strings

section Numbers

/-- The operations on doubles that a number text is converted with. -/
structure Doubles (Num : Type) where
  ofUint64 : Nat → Num
  neg : Num → Num
  strtod : List Nat → Num

def accumulate (n : Nat) : List Nat → Option Nat
  | [] => some n
  | c :: p =>
    if ¬isDigit c then some n
    else if n ≤ (2 ^ 64 - 1 - 9) / 10 then accumulate (n * 10 + (c - 0x30)) p
    else none

variable {Num : Type}

def jsStrtod (doubles : Doubles Num) (buf : List Nat) (isFloat : Bool) : Num :=
  if isFloat then doubles.strtod buf
  else
    let isNeg := buf.headD 0 = 0x2d
    match accumulate 0 ((if isNeg then buf.tail else buf).dropWhile (· = 0x30)) with
    | none => doubles.strtod buf
    | some n => if isNeg then doubles.neg (doubles.ofUint64 n) else doubles.ofUint64 n

def scanFraction (hasDigits : Bool) (p : List Nat) : List Nat × List Nat :=
  if p.headD 0 = 0x2e ∧ (hasDigits ∨ isDigit (p.tail.headD 0)) then
    (0x2e :: p.tail.takeWhile isDigit, p.tail.dropWhile isDigit)
  else ([], p)

def scanSign (p : List Nat) : List Nat × List Nat :=
  if p.headD 0 = 0x2b ∨ p.headD 0 = 0x2d then ([p.headD 0], p.tail) else ([], p)

def isExponentLetter (c : Nat) : Bool := c == 0x65 || c == 0x45

def scanExponent (p : List Nat) : List Nat × List Nat :=
  if isExponentLetter (p.headD 0) ∧ isDigit ((scanSign p.tail).2.headD 0) then
    (p.headD 0 :: ((scanSign p.tail).1 ++ (scanSign p.tail).2.takeWhile isDigit),
      (scanSign p.tail).2.dropWhile isDigit)
  else ([], p)

/-- The text of a number without its sign. A letter of an exponent makes a float even without
digits behind it. -/
structure Scanned where
  text : List Nat
  isFloat : Bool
  rest : List Nat

def scanUnsigned (p : List Nat) : Scanned :=
  let digits := p.takeWhile isDigit
  let fraction := scanFraction (!digits.isEmpty) (p.dropWhile isDigit)
  let exponent := scanExponent fraction.2
  ⟨digits ++ (fraction.1 ++ exponent.1), !fraction.1.isEmpty || isExponentLetter (fraction.2.headD 0), exponent.2⟩

/-- `js_atof` in radix 10 without flags, where a digit follows the optional minus sign. -/
def jsAtof (doubles : Doubles Num) (p : List Nat) : Num × List Nat :=
  if p.headD 0 = 0x2d then
    let scanned := scanUnsigned p.tail
    (jsStrtod doubles (0x2d :: scanned.text) scanned.isFloat, scanned.rest)
  else
    let scanned := scanUnsigned p
    (jsStrtod doubles scanned.text scanned.isFloat, scanned.rest)

end Numbers

section Tokens

inductive Token (Num : Type) where
  | eof
  | char (c : Nat)
  | string (units : Utf16)
  | number (x : Num)
  | ident (name : List Nat)

def isIdentFirst (c : Nat) : Bool :=
  (0x61 ≤ c && c ≤ 0x7a) || (0x41 ≤ c && c ≤ 0x5a) || c == 0x5f || c == 0x24

def isIdContinueByte (c : Nat) : Bool := isIdentFirst c || isDigit c

variable {Num : Type} (mem : Memory) (doubles : Doubles Num)

abbrev State (Num : Type) := Token Num × List Nat

def number (p : List Nat) : Result (State Num) := some (.ok (.number (jsAtof doubles p).1, (jsAtof doubles p).2))

/-- The blanks in front of a token. That a carriage return takes a line feed with it matters only
for the line number. -/
def isBlank (c : Nat) : Bool := c == 0x20 || c == 0x09 || c == 0x0a || c == 0x0d

def firstToken : List Nat → Result (State Num)
  | [] => some (.ok (.eof, []))
  | c :: p =>
    if c = 0x22 then (jsParseString mem (.init mem 32) p).bind fun r => some (.ok (.string r.1, r.2))
    else if isIdentFirst c then
      some (.ok (.ident (c :: p.takeWhile isIdContinueByte), p.dropWhile isIdContinueByte))
    else if c = 0x30 then if isDigit (p.headD 0) then some (.ok (.char c, p)) else number doubles (c :: p)
    else if c = 0x2d then if ¬isDigit (p.headD 0) then some (.ok (.char c, p)) else number doubles (c :: p)
    else if isDigit c then number doubles (c :: p)
    else if 0x80 ≤ c then some (.error .unexpectedCharacter)
    else some (.ok (.char c, p))

/-- `json_next_token` without extensions, but for the test of the stack. -/
def jsonNextToken (p : List Nat) : Result (State Num) := firstToken mem doubles (p.dropWhile isBlank)

end Tokens

end Json
