import Partikle.Json.Parse

/-!
JSON texts. The grammar of ECMA-404 and the one that the engine reads differ in their escapes and
numbers only.
-/

namespace Json

open Strings

variable {Num : Type}

/-- The texts of escapes, without the backslash and with what they stand for, and of numbers. -/
structure Lexicon where
  escape : Utf16 → Utf16 → Prop
  number : Utf16 → Prop

section Syntax

variable (lex : Lexicon)

def Ws (t : Utf16) : Prop := ∀ c ∈ t, c = 0x20 ∨ c = 0x09 ∨ c = 0x0a ∨ c = 0x0d

inductive Chars : Utf16 → Utf16 → Prop
  | nil : Chars [] []
  | char {c : BitVec 16} {t v : Utf16} (printable : 0x20 ≤ c.toNat) (notQuote : c ≠ 0x22)
      (notBackslash : c ≠ 0x5c) (rest : Chars t v) : Chars (c :: t) (c :: v)
  | escape {e u t v : Utf16} (escape : lex.escape e u) (rest : Chars t v) :
      Chars (0x5c :: (e ++ t)) (u ++ v)

def StringText (t units : Utf16) : Prop :=
  ∃ body, Chars lex body units ∧ t = 0x22 :: (body ++ [0x22])

inductive Separated {α : Type} (item : Utf16 → α → Prop) : Utf16 → List α → Prop
  | one {t : Utf16} {v : α} (first : item t v) : Separated item t [v]
  | cons {t ts : Utf16} {v : α} {vs : List α} (first : item t v) (rest : Separated item ts vs) :
      Separated item (t ++ 0x2c :: ts) (v :: vs)

def Element (value : Utf16 → Value Num → Prop) (t : Utf16) (v : Value Num) : Prop :=
  ∃ w body w', Ws w ∧ value body v ∧ Ws w' ∧ t = w ++ (body ++ w')

def Member (value : Utf16 → Value Num → Prop) (t : Utf16)
    (member : Utf16 × Value Num) : Prop :=
  ∃ w key w' element, Ws w ∧ StringText lex key member.1 ∧ Ws w' ∧ Element value element member.2 ∧
    t = w ++ (key ++ (w' ++ 0x3a :: element))

def object (members : List (Utf16 × Value Num)) : Value Num :=
  .obj (members.foldl (fun members member => define members member.1 member.2) [])

inductive Composite (number : Utf16 → Num) (value : Utf16 → Value Num → Prop) :
    Utf16 → Value Num → Prop
  | false : Composite number value [0x66, 0x61, 0x6c, 0x73, 0x65] (.bool .false)
  | true : Composite number value [0x74, 0x72, 0x75, 0x65] (.bool .true)
  | null : Composite number value [0x6e, 0x75, 0x6c, 0x6c] .null
  | num {t : Utf16} (text : lex.number t) : Composite number value t (.num (number t))
  | str {t units : Utf16} (text : StringText lex t units) : Composite number value t (.str units)
  | emptyArr {w : Utf16} (blank : Ws w) : Composite number value (0x5b :: (w ++ [0x5d])) (.arr [])
  | arr {t : Utf16} {vs : List (Value Num)} (items : Separated (Element value) t vs) :
      Composite number value (0x5b :: (t ++ [0x5d])) (.arr vs)
  | emptyObj {w : Utf16} (blank : Ws w) : Composite number value (0x7b :: (w ++ [0x7d])) (.obj [])
  | obj {t : Utf16} {members : List (Utf16 × Value Num)}
      (items : Separated (Member lex value) t members) :
      Composite number value (0x7b :: (t ++ [0x7d])) (object members)

/-- A value with at most `n` values around and including its innermost ones. -/
def Nested (number : Utf16 → Num) : Nat → Utf16 → Value Num → Prop
  | 0 => fun _ _ => False
  | n + 1 => Composite lex number (Nested number n)

def JsonText (number : Utf16 → Num) (n : Nat) : Utf16 → Value Num → Prop :=
  Element (Nested lex number n)

end Syntax

section Lexicons

def hexFrom (n : Nat) : Utf16 → Option Nat
  | [] => some n
  | c :: t => (fromHex c.toNat).bind fun d => hexFrom (16 * n + d) t

def AllDigits (t : Utf16) : Prop := ∀ c ∈ t, isDigit c.toNat = true

def IntPart (t : Utf16) : Prop :=
  t = [0x30] ∨ ∃ c rest, t = c :: rest ∧ c ≠ 0x30 ∧ AllDigits (c :: rest)

def Exponent (t : Utf16) : Prop :=
  t = [] ∨ ∃ e sign digits, (e = 0x65 ∨ e = 0x45) ∧ (sign = [] ∨ sign = [0x2b] ∨ sign = [0x2d]) ∧
    digits ≠ [] ∧ AllDigits digits ∧ t = e :: (sign ++ digits)

inductive EcmaEscape : Utf16 → Utf16 → Prop
  | same {c : BitVec 16} (is : c = 0x22 ∨ c = 0x5c ∨ c = 0x2f) : EcmaEscape [c] [c]
  | backspace : EcmaEscape [0x62] [0x08]
  | formFeed : EcmaEscape [0x66] [0x0c]
  | newline : EcmaEscape [0x6e] [0x0a]
  | return : EcmaEscape [0x72] [0x0d]
  | tab : EcmaEscape [0x74] [0x09]
  | unicode {t : Utf16} {n : Nat} (four : t.length = 4) (digits : hexFrom 0 t = some n) :
      EcmaEscape (0x75 :: t) [.ofNat 16 n]

def EcmaNumber (t : Utf16) : Prop :=
  ∃ sign int frac exp, (sign = [] ∨ sign = [0x2d]) ∧ IntPart int ∧
    (frac = [] ∨ ∃ digits, digits ≠ [] ∧ AllDigits digits ∧ frac = 0x2e :: digits) ∧ Exponent exp ∧
    t = sign ++ (int ++ (frac ++ exp))

def ecma404 : Lexicon := ⟨EcmaEscape, EcmaNumber⟩

/-- An escaped character that stands for itself: none of `b f n r t v x u`, no digit, no end of a
line and no separator. -/
def Literal (c : BitVec 16) : Prop :=
  controlEscape c.toNat = none ∧ c ≠ 0x78 ∧ c ≠ 0x75 ∧ isDigit c.toNat = false ∧ c ≠ 0x0a ∧ c ≠ 0x0d ∧
    c ≠ 0x2028 ∧ c ≠ 0x2029

inductive EngineEscape : Utf16 → Utf16 → Prop
  | same {c : BitVec 16} (literal : Literal c) : EngineEscape [c] [c]
  | control {c : BitVec 16} {n : Nat} (is : controlEscape c.toNat = some n) : EngineEscape [c] [.ofNat 16 n]
  | line {t : Utf16}
      (is : t = [0x0a] ∨ t = [0x0d] ∨ t = [0x0d, 0x0a] ∨ t = [0x2028] ∨ t = [0x2029]) : EngineEscape t []
  | two {t : Utf16} {n : Nat} (two : t.length = 2) (digits : hexFrom 0 t = some n) :
      EngineEscape (0x78 :: t) [.ofNat 16 n]
  | four {t : Utf16} {n : Nat} (four : t.length = 4) (digits : hexFrom 0 t = some n) :
      EngineEscape (0x75 :: t) [.ofNat 16 n]
  | braced {c : BitVec 16} {t : Utf16} {n : Nat} (letter : c = 0x78 ∨ c = 0x75) (nonempty : t ≠ [])
      (digits : hexFrom 0 t = some n) (range : n ≤ 0x10FFFF) :
      EngineEscape (c :: 0x7b :: (t ++ [0x7d])) (Text.unitsOf n)

/-- Behind a minus sign any digits make an integer part, and there may be no digits behind a
point. -/
def EngineNumber (t : Utf16) : Prop :=
  ∃ sign int frac exp, (sign = [] ∧ IntPart int ∨ sign = [0x2d] ∧ int ≠ [] ∧ AllDigits int) ∧
    (frac = [] ∨ ∃ digits, AllDigits digits ∧ frac = 0x2e :: digits) ∧ Exponent exp ∧
    t = sign ++ (int ++ (frac ++ exp))

def engine : Lexicon := ⟨EngineEscape, EngineNumber⟩

def numberOf (doubles : Doubles Num) (t : Utf16) : Num :=
  jsStrtod doubles (t.map BitVec.toNat) (t.any fun c => c.toNat == 0x2e || isExponentLetter c.toNat)

end Lexicons

end Json
