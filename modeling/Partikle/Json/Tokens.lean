import Partikle.Json.Lex

/-!
Numbers, identifiers and whole tokens of a text that was converted to UTF-8.
-/

namespace Json

open Text Strings List

variable {Num : Type}

theorem Result.bind_eq_ok {α β : Type} {r : Result α} {f : α → Result β} {b : β} :
    r.bind f = some (.ok b) ↔ ∃ a, r = some (.ok a) ∧ f a = some (.ok b) := by
  unfold Result.bind
  split
  · simp
  · simp
  · simp

section Runs

variable {f : Nat → Bool} {t rest : Utf16}

theorem span_encode (ascii : ∀ n, f n = true → n < 0x80) (t : Utf16) :
    (encode t).takeWhile f = (t.takeWhile fun c => f c.toNat).map BitVec.toNat ∧
      (encode t).dropWhile f = encode (t.dropWhile fun c => f c.toNat) := by
  induction t with
  | nil => simp
  | cons c t ih =>
    rcases encode_cases (c :: t) with is | ⟨_, _, same, low, is⟩ | ⟨_, _, b, p, same, high, is, beyond⟩
    · cases is
    · cases same
      cases holds : f c.toNat <;> simp [holds, ih, is]
    · cases same
      have first : f b = false := by
        by_contra holds
        have := ascii b (by simpa using holds)
        omega
      have unit : f c.toNat = false := by
        by_contra holds
        have := ascii c.toNat (by simpa using holds)
        omega
      constructor
      · simp [is, first, unit]
      · rw [dropWhile_cons, unit, if_neg (by simp), is, dropWhile_cons, first, if_neg (by simp)]

def NotNext (f : Nat → Bool) (rest : Utf16) : Prop :=
  ∀ c rest', rest = c :: rest' → f c.toNat = false

theorem takeWhile_run (all : ∀ c ∈ t, f c.toNat = true) (stop : NotNext f rest) :
    ((t ++ rest).takeWhile fun c => f c.toNat) = t ∧ ((t ++ rest).dropWhile fun c => f c.toNat) = rest := by
  induction t with
  | nil =>
    cases rest with
    | nil => simp
    | cons c rest =>
      have first := stop c rest rfl
      simp [first]
  | cons c t ih =>
    have first := all c (by simp)
    obtain ⟨taken, left⟩ := ih fun c there => all c (by simp [there])
    simp [first, taken, left]

theorem all_takeWhile (f : Nat → Bool) (t : Utf16) :
    ∀ c ∈ t.takeWhile (fun c => f c.toNat), f c.toNat = true :=
  all_eq_true.mp List.all_takeWhile

theorem exists_run (ascii : ∀ n, f n = true → n < 0x80) (t : Utf16) :
    ∃ run rest, t = run ++ rest ∧ (∀ c ∈ run, f c.toNat = true) ∧ NotNext f rest ∧
      (encode t).takeWhile f = run.map BitVec.toNat ∧ (encode t).dropWhile f = encode rest := by
  refine ⟨_, _, (takeWhile_append_dropWhile).symm, all_takeWhile f t, fun c rest is => ?_, span_encode ascii t⟩
  have first := head?_dropWhile_not (fun c : BitVec 16 => f c.toNat) t
  rw [is] at first
  simpa using first

theorem span_run (ascii : ∀ n, f n = true → n < 0x80) (all : ∀ c ∈ t, f c.toNat = true) (stop : NotNext f rest) :
    (encode (t ++ rest)).takeWhile f = t.map BitVec.toNat ∧ (encode (t ++ rest)).dropWhile f = encode rest := by
  obtain ⟨taken, left⟩ := takeWhile_run all stop
  obtain ⟨bytes, behind⟩ := span_encode ascii (t ++ rest)
  rw [taken] at bytes
  rw [left] at behind
  exact ⟨bytes, behind⟩

theorem isDigit_lt (n : Nat) (digit : isDigit n = true) : n < 0x80 := by
  simp [isDigit] at digit
  omega

theorem isIdContinueByte_lt (n : Nat) (continues : isIdContinueByte n = true) : n < 0x80 := by
  simp [isIdContinueByte, isIdentFirst, isDigit] at continues
  omega

theorem isDigit_headD (t : Utf16) :
    isDigit ((encode t).headD 0) = true ↔ ∃ c rest, t = c :: rest ∧ isDigit c.toNat = true :=
  headD_encode_of isDigit_lt rfl t

end Runs

section Numbers

variable {t rest frac exp digits : Utf16} {p : List Nat}

def LooseFraction (t : Utf16) : Prop := t = [] ∨ ∃ digits, AllDigits digits ∧ t = 0x2e :: digits

theorem scanFraction_spec (t : Utf16) : ∃ frac rest, t = frac ++ rest ∧ LooseFraction frac ∧
      scanFraction true (encode t) = (frac.map BitVec.toNat, encode rest) := by
  unfold scanFraction
  by_cases point : (encode t).headD 0 = 0x2e
  · obtain ⟨t, rfl⟩ := (headD_encode (by decide) (by decide)).mp point
    obtain ⟨digits, rest, rfl, all, -, taken, left⟩ := exists_run isDigit_lt t
    refine ⟨0x2e :: digits, rest, rfl, .inr ⟨digits, all, rfl⟩, ?_⟩
    rw [if_pos ⟨point, .inl rfl⟩, encode_cons (by decide), tail_cons, taken, left]
    rfl
  · rw [if_neg fun both => point both.1]
    exact ⟨[], t, rfl, .inl rfl, rfl⟩

theorem scanFraction_eq (fraction : LooseFraction frac) (stop : NotNext isDigit rest)
    (noPoint : NotNext (· == 0x2e) rest) :
    scanFraction true (encode (frac ++ rest)) = (frac.map BitVec.toNat, encode rest) := by
  unfold scanFraction
  rcases fraction with rfl | ⟨digits, all, rfl⟩
  · rw [if_neg]
    · rfl
    · rintro ⟨point, -⟩
      obtain ⟨rest', rfl⟩ := (headD_encode (by decide) (by decide)).mp point
      exact absurd (noPoint _ _ rfl) (by decide)
  · obtain ⟨taken, left⟩ := span_run isDigit_lt all stop
    rw [cons_append, encode_cons (by decide), headD_cons, tail_cons, if_pos ⟨rfl, .inl rfl⟩, taken,
      left]
    rfl

theorem scanSign_spec (t : Utf16) :
    ∃ sign rest, t = sign ++ rest ∧ (sign = [] ∨ sign = [0x2b] ∨ sign = [0x2d]) ∧
      scanSign (encode t) = (sign.map BitVec.toNat, encode rest) := by
  unfold scanSign
  by_cases plus : (encode t).headD 0 = 0x2b
  · obtain ⟨rest, rfl⟩ := (headD_encode (by decide) (by decide)).mp plus
    refine ⟨[0x2b], rest, rfl, by simp, ?_⟩
    rw [if_pos (.inl plus), plus, encode_cons (by decide)]
    rfl
  by_cases minus : (encode t).headD 0 = 0x2d
  · obtain ⟨rest, rfl⟩ := (headD_encode (by decide) (by decide)).mp minus
    refine ⟨[0x2d], rest, rfl, by simp, ?_⟩
    rw [if_pos (.inr minus), minus, encode_cons (by decide)]
    rfl
  exact ⟨[], t, rfl, by simp, if_neg (not_or.mpr ⟨plus, minus⟩)⟩

variable {c : BitVec 16} {int : Utf16}

theorem scanSign_eq {sign : Utf16} (signs : sign = [] ∨ sign = [0x2b] ∨ sign = [0x2d])
    (digit : isDigit c.toNat = true) (t : Utf16) :
    scanSign (encode (sign ++ c :: t)) = (sign.map BitVec.toNat, encode (c :: t)) := by
  unfold scanSign
  rcases signs with rfl | rfl | rfl
  · have bytes := encode_cons (t := t) (isDigit_lt _ digit)
    rw [if_neg]
    · rfl
    · rw [nil_append, bytes, headD_cons]
      simp [isDigit] at digit
      omega
  · rw [singleton_append, encode_cons (c := 0x2b) (by decide)]
    rfl
  · rw [singleton_append, encode_cons (c := 0x2d) (by decide)]
    rfl

theorem isExponentLetter_lt (n : Nat) (letter : isExponentLetter n = true) : n < 0x80 := by
  simp [isExponentLetter] at letter
  omega

theorem isExponentLetter_iff : isExponentLetter c.toNat = true ↔ c = 0x65 ∨ c = 0x45 := by
  simp (disch := decide) only [isExponentLetter, Bool.or_eq_true, beq_iff_eq, toNat_eq]
  rfl

theorem isExponentLetter_headD (t : Utf16) :
    isExponentLetter ((encode t).headD 0) = true ↔ ∃ e rest, t = e :: rest ∧ isExponentLetter e.toNat = true :=
  headD_encode_of isExponentLetter_lt rfl t

theorem scanExponent_spec (t : Utf16) :
    ∃ exp rest, t = exp ++ rest ∧ Exponent exp ∧ scanExponent (encode t) = (exp.map BitVec.toNat, encode rest) := by
  unfold scanExponent
  by_cases letter : isExponentLetter ((encode t).headD 0) = true
  · obtain ⟨e, t, rfl, is⟩ := (isExponentLetter_headD t).mp letter
    have low := isExponentLetter_lt _ is
    rw [encode_cons low, headD_cons, tail_cons]
    obtain ⟨sign, rest, rfl, signs, scanned⟩ := scanSign_spec t
    rw [scanned]
    by_cases digit : isDigit ((encode rest).headD 0) = true
    · rw [if_pos ⟨is, digit⟩]
      obtain ⟨digits, rest', rfl, all, -, taken, left⟩ := exists_run isDigit_lt rest
      have nonempty : digits ≠ [] := by
        rintro rfl
        obtain ⟨c, rest', rfl, isDigit⟩ := (isDigit_headD _).mp digit
        rw [nil_append, encode_cons (isDigit_lt _ isDigit), takeWhile_cons, isDigit] at taken
        simp at taken
      refine ⟨e :: (sign ++ digits), rest', by simp,
        .inr ⟨e, sign, digits, isExponentLetter_iff.mp is, signs, nonempty, all, rfl⟩, ?_⟩
      rw [taken, left]
      simp
    · rw [if_neg fun both => digit both.2]
      exact ⟨[], e :: (sign ++ rest), rfl, .inl rfl, by rw [encode_cons low]; rfl⟩
  · rw [if_neg fun both => letter both.1]
    exact ⟨[], t, rfl, .inl rfl, rfl⟩

theorem scanExponent_eq (exponent : Exponent exp) (stop : NotNext isDigit rest)
    (noLetter : NotNext isExponentLetter rest) :
    scanExponent (encode (exp ++ rest)) = (exp.map BitVec.toNat, encode rest) := by
  unfold scanExponent
  rcases exponent with rfl | ⟨e, sign, digits, letters, signs, nonempty, all, rfl⟩
  · rw [if_neg]
    · rfl
    · rintro ⟨letter, -⟩
      obtain ⟨e, rest', rfl, is⟩ := (isExponentLetter_headD _).mp letter
      simp [noLetter e rest' rfl] at is
  · have letter := isExponentLetter_iff.mpr letters
    have text : e :: (sign ++ digits) ++ rest = e :: (sign ++ (digits ++ rest)) := by simp
    obtain ⟨taken, left⟩ := span_run isDigit_lt all stop
    have scanned : scanSign (encode (sign ++ (digits ++ rest))) = (sign.map BitVec.toNat, encode (digits ++ rest)) ∧
        isDigit ((encode (digits ++ rest)).headD 0) = true := by
      cases digits with
      | nil => exact absurd rfl nonempty
      | cons c digits =>
        have digit := all c (by simp)
        exact ⟨scanSign_eq signs digit _, (isDigit_headD _).mpr ⟨c, digits ++ rest, rfl, digit⟩⟩
    rw [text, encode_cons (isExponentLetter_lt _ letter), headD_cons, tail_cons, scanned.1,
      if_pos ⟨letter, scanned.2⟩, taken, left]
    simp

/-- Something other than a digit, a point and the letter of an exponent follows. -/
structure NumberEnd (rest : Utf16) : Prop where
  digit : NotNext isDigit rest
  point : NotNext (· == 0x2e) rest
  letter : NotNext isExponentLetter rest

theorem head_exponent (exponent : Exponent exp) (noLetter : NotNext isExponentLetter rest) :
    isExponentLetter ((encode (exp ++ rest)).headD 0) = !exp.isEmpty := by
  rcases exponent with rfl | ⟨e, sign, digits, letters, -, -, -, rfl⟩
  · rw [nil_append, isEmpty_nil, Bool.not_true, Bool.eq_false_iff]
    intro letter
    obtain ⟨e, rest', rfl, is⟩ := (isExponentLetter_headD _).mp letter
    simp [noLetter e rest' rfl] at is
  · rw [cons_append, encode_cons (by rcases letters with rfl | rfl <;> decide), headD_cons]
    rcases letters with rfl | rfl <;> rfl

theorem scanUnsigned_spec (digit : isDigit c.toNat = true) (t : Utf16) :
    ∃ int frac exp rest, c :: t = int ++ (frac ++ (exp ++ rest)) ∧ int ≠ [] ∧ AllDigits int ∧
      NotNext isDigit (frac ++ (exp ++ rest)) ∧ LooseFraction frac ∧ Exponent exp ∧
      (scanUnsigned (encode (c :: t))).text = (int ++ (frac ++ exp)).map BitVec.toNat ∧
      (scanUnsigned (encode (c :: t))).rest = encode rest ∧ (NotNext isExponentLetter rest →
      (scanUnsigned (encode (c :: t))).isFloat = (!frac.isEmpty || !exp.isEmpty)) := by
  obtain ⟨int, rest, split, all, stop, taken, left⟩ := exists_run isDigit_lt (c :: t)
  have nonempty : int ≠ [] := by
    rintro rfl
    rw [encode_cons (isDigit_lt _ digit), takeWhile_cons, digit] at taken
    simp at taken
  obtain ⟨frac, rest, rfl, fraction, scanned⟩ := scanFraction_spec rest
  obtain ⟨exp, rest, rfl, exponent, scanned'⟩ := scanExponent_spec rest
  have some' : (!(int.map BitVec.toNat).isEmpty) = true := by simpa using nonempty
  refine ⟨int, frac, exp, rest, split, nonempty, all, stop, fraction, exponent, ?_, ?_, ?_⟩
  all_goals simp only [scanUnsigned, taken, left, some', scanned, scanned']
  · simp
  · intro noLetter
    rw [head_exponent exponent noLetter]
    simp

theorem notNext_exponent (exponent : Exponent exp) (ends : NumberEnd rest) :
    NotNext isDigit (exp ++ rest) ∧ NotNext (· == 0x2e) (exp ++ rest) := by
  rcases exponent with rfl | ⟨e, sign, digits, letters, -, -, -, rfl⟩
  · exact ⟨ends.digit, ends.point⟩
  · constructor
    all_goals
      rintro c rest' same
      rw [cons_append, cons.injEq] at same
      rw [← same.1]
      rcases letters with rfl | rfl <;> rfl

theorem notNext_fraction (fraction : LooseFraction frac) (exponent : Exponent exp) (ends : NumberEnd rest) :
    NotNext isDigit (frac ++ (exp ++ rest)) := by
  rcases fraction with rfl | ⟨digits, -, rfl⟩
  · exact (notNext_exponent exponent ends).1
  · rintro c rest' same
    rw [cons_append, cons.injEq] at same
    rw [← same.1]
    rfl

theorem scanUnsigned_eq (nonempty : int ≠ []) (all : AllDigits int) (fraction : LooseFraction frac)
    (exponent : Exponent exp) (ends : NumberEnd rest) :
    scanUnsigned (encode (int ++ (frac ++ (exp ++ rest)))) = ⟨(int ++ (frac ++ exp)).map BitVec.toNat,
      !frac.isEmpty || !exp.isEmpty, encode rest⟩ := by
  obtain ⟨noDigit, noPoint⟩ := notNext_exponent exponent ends
  obtain ⟨taken, left⟩ := span_run isDigit_lt all (notNext_fraction fraction exponent ends)
  have some' : (!(int.map BitVec.toNat).isEmpty) = true := by simpa using nonempty
  simp only [scanUnsigned, taken, left, some', scanFraction_eq fraction noDigit noPoint,
    scanExponent_eq exponent ends.digit ends.letter, head_exponent exponent ends.letter]
  simp

theorem any_float (all : AllDigits int) (fraction : LooseFraction frac) (exponent : Exponent exp) :
    ((int ++ (frac ++ exp)).any fun c => c.toNat == 0x2e || isExponentLetter c.toNat) = (!frac.isEmpty ||
    !exp.isEmpty) := by
  have digits : ∀ {t : Utf16}, AllDigits t →
      (t.any fun c => c.toNat == 0x2e || isExponentLetter c.toNat) = false := by
    intro t all
    refine any_eq_false.mpr fun c there => ?_
    have digit := all c there
    simp [isDigit] at digit
    simp [isExponentLetter]
    omega
  rw [any_append, any_append, digits all, Bool.false_or]
  congr 1
  · rcases fraction with rfl | ⟨ds, -, rfl⟩
    · rfl
    · rfl
  · rcases exponent with rfl | ⟨e, sign, ds, letters, -, -, -, rfl⟩
    · rfl
    · rcases letters with rfl | rfl <;> rfl

def NumberStart (t : Utf16) : Prop :=
  (∃ c rest, t = c :: rest ∧ isDigit c.toNat = true ∧ (c = 0x30 → NotNext isDigit rest)) ∨
    ∃ c rest, t = 0x2d :: c :: rest ∧ isDigit c.toNat = true

variable (doubles : Doubles Num)

theorem jsAtof_minus (t : Utf16) :
    jsAtof doubles (encode (0x2d :: t)) = (jsStrtod doubles (0x2d :: (scanUnsigned (encode t)).text)
      (scanUnsigned (encode t)).isFloat, (scanUnsigned (encode t)).rest) := by
  rw [encode_cons (by decide)]
  rfl

theorem jsAtof_digit (digit : isDigit c.toNat = true) (t : Utf16) :
    jsAtof doubles (encode (c :: t)) = (jsStrtod doubles (scanUnsigned (encode (c :: t))).text
      (scanUnsigned (encode (c :: t))).isFloat, (scanUnsigned (encode (c :: t))).rest) := by
  rw [jsAtof, if_neg]
  rw [encode_cons (isDigit_lt _ digit), headD_cons]
  simp [isDigit] at digit
  omega

theorem jsAtof_sound (start : NumberStart t) :
    ∃ text rest, t = text ++ rest ∧ EngineNumber text ∧ (jsAtof doubles (encode t)).2 = encode rest ∧
      (NotNext isExponentLetter rest → (jsAtof doubles (encode t)).1 = numberOf doubles text) := by
  rcases start with ⟨c, t, rfl, digit, zero⟩ | ⟨c, t, rfl, digit⟩
  · obtain ⟨int, frac, exp, rest, split, nonempty, all, stop, fraction, exponent, text, left, float⟩ :=
      scanUnsigned_spec digit t
    have intPart : IntPart int := by
      cases int with
      | nil => exact absurd rfl nonempty
      | cons c' int =>
        obtain ⟨rfl, rfl⟩ := split
        by_cases isZero : c = 0x30
        · cases int with
          | nil => exact .inl (by rw [isZero])
          | cons d int =>
            have notDigit := zero isZero d _ rfl
            simp [all d (by simp)] at notDigit
        · exact .inr ⟨c, int, rfl, isZero, all⟩
    rw [jsAtof_digit doubles digit]
    refine ⟨int ++ (frac ++ exp), rest, by rw [split]; simp, ⟨[], int, frac, exp, .inl ⟨rfl, intPart⟩, fraction,
      exponent, rfl⟩, left, fun noLetter => ?_⟩
    rw [numberOf, any_float all fraction exponent, text, float noLetter]
  · obtain ⟨int, frac, exp, rest, split, nonempty, all, -, fraction, exponent, text, left, float⟩ :=
      scanUnsigned_spec digit t
    rw [jsAtof_minus]
    refine ⟨0x2d :: (int ++ (frac ++ exp)), rest, by rw [split]; simp, ⟨[0x2d], int, frac, exp,
      .inr ⟨rfl, nonempty, all⟩, fraction, exponent, rfl⟩, left, fun noLetter => ?_⟩
    rw [numberOf, any_cons, any_float all fraction exponent, text, float noLetter]
    rfl

theorem IntPart.allDigits (intPart : IntPart int) : int ≠ [] ∧ AllDigits int := by
  rcases intPart with rfl | ⟨c, rest, rfl, -, all⟩
  · exact ⟨by simp, by simp [AllDigits, isDigit]⟩
  · exact ⟨by simp, all⟩

theorem jsAtof_complete {text : Utf16} (number : EngineNumber text) (ends : NumberEnd rest) :
    NumberStart (text ++ rest) ∧ jsAtof doubles (encode (text ++ rest)) = (numberOf doubles text, encode rest) := by
  obtain ⟨sign, int, frac, exp, signed, fraction, exponent, rfl⟩ := number
  have digits : int ≠ [] ∧ AllDigits int := by
    rcases signed with ⟨-, intPart⟩ | ⟨-, nonempty, all⟩
    · exact intPart.allDigits
    · exact ⟨nonempty, all⟩
  have scanned := scanUnsigned_eq digits.1 digits.2 fraction exponent ends
  have float := any_float digits.2 fraction exponent
  obtain ⟨c, int', rfl⟩ := exists_cons_of_ne_nil digits.1
  have digit := digits.2 c (by simp)
  have text : c :: int' ++ (frac ++ (exp ++ rest)) = c :: (int' ++ (frac ++ (exp ++ rest))) := rfl
  rcases signed with ⟨rfl, intPart⟩ | ⟨rfl, -⟩
  · have split : [] ++ (c :: int' ++ (frac ++ exp)) ++ rest = c :: (int' ++ (frac ++ (exp ++ rest))) := by simp
    rw [split]
    refine ⟨.inl ⟨c, _, rfl, digit, ?_⟩, ?_⟩
    · rintro rfl
      rcases intPart with same | ⟨c, rest', same, notZero, -⟩
      · obtain ⟨-, rfl⟩ := cons.inj same
        rw [nil_append]
        exact notNext_fraction fraction exponent ends
      · exact absurd (cons.inj same).1.symm notZero
    · rw [jsAtof_digit doubles digit, ← text, scanned, numberOf, nil_append, float]
  · have split : [0x2d] ++ (c :: int' ++ (frac ++ exp)) ++ rest = 0x2d :: c :: (int' ++ (frac ++ (exp ++ rest))) := by
      simp
    rw [split]
    refine ⟨.inr ⟨c, _, rfl, digit⟩, ?_⟩
    rw [jsAtof_minus, ← text, scanned, numberOf, singleton_append, any_cons, float]
    rfl

end Numbers

section Tokens

variable (mem : Memory) (doubles : Doubles Num) {t rest : Utf16}

abbrev lex (t : Utf16) : Result (State Num) := jsonNextToken mem doubles (encode t)

variable {c : BitVec 16} {p : List Nat} {token : Token Num}

theorem isBlank_iff : isBlank c.toNat = true ↔ c = 0x20 ∨ c = 0x09 ∨ c = 0x0a ∨ c = 0x0d := by
  simp (disch := decide) only [isBlank, Bool.or_eq_true, beq_iff_eq, toNat_eq, or_assoc]
  rfl

theorem isBlank_lt (n : Nat) (blank : isBlank n = true) : n < 0x80 := by
  simp [isBlank] at blank
  omega

theorem lex_blank {w : Utf16} (blanks : Ws w) (t : Utf16) :
    lex mem doubles (w ++ t) = lex mem doubles t := by
  have skipped := (span_encode isBlank_lt (w ++ t)).2
  have same := (span_encode isBlank_lt t).2
  have all : ∀ c ∈ w, isBlank c.toNat = true := fun c there => isBlank_iff.mpr (blanks c there)
  rw [dropWhile_append_of_pos all] at skipped
  unfold lex jsonNextToken
  rw [skipped, same]

/-- `t` is the text of a token in front of `rest`. -/
def TokenText (token : Token Num) (t rest : Utf16) : Prop :=
  match token with
  | .eof => t = [] ∧ rest = []
  | .char c => ∃ u : BitVec 16, t = [u] ∧ u.toNat = c
  | .string units => StringText engine t units
  | .number x => EngineNumber t ∧ (NotNext isExponentLetter rest → x = numberOf doubles t)
  | .ident name => t ≠ [] ∧ name = t.map BitVec.toNat

theorem firstToken_sound (read : firstToken mem doubles (encode t) = some (.ok (token, p))) :
    ∃ text rest, t = text ++ rest ∧ p = encode rest ∧ TokenText doubles token text rest := by
  rcases encode_cases t with rfl | ⟨c, t, rfl, low, is⟩ | ⟨c, t, b, q, rfl, high, is, beyond⟩
  · rw [encode_nil] at read
    cases read
    exact ⟨[], [], rfl, encode_nil.symm, rfl, rfl⟩
  · have single : (some (.ok (.char c.toNat, encode t)) : Result (State Num)) = some (.ok (token, p)) →
        ∃ text rest, c :: t = text ++ rest ∧ p = encode rest ∧ TokenText doubles token text rest := by
      intro same
      cases same
      exact ⟨[c], t, rfl, rfl, c, rfl, rfl⟩
    have numeric : NumberStart (c :: t) → number doubles (c.toNat :: encode t) = some (.ok (token, p)) →
        ∃ text rest, c :: t = text ++ rest ∧ p = encode rest ∧ TokenText doubles token text rest := by
      intro start read
      rw [← is] at read
      obtain ⟨text, rest, split, engine, left, value⟩ := jsAtof_sound doubles start
      simp only [number, left] at read
      cases read
      exact ⟨text, rest, split, rfl, engine, value⟩
    rw [is] at read
    simp only [firstToken] at read
    split at read
    · next quote =>
        obtain rfl := (toNat_eq (by decide)).mp quote
        obtain ⟨found, parsed, read⟩ := Result.bind_eq_ok.mp read
        cases read
        have given : (StringBuffer.init mem 32).Given [] := StringBuffer.init_given mem (by decide)
        obtain ⟨body, v, rest, rfl, chars, rfl, here⟩ := jsParseString_sound mem given parsed
        exact ⟨0x22 :: (body ++ [0x22]), rest, by simp, here, body, chars, rfl⟩
    split at read
    · cases read
      obtain ⟨name, rest, rfl, all, -, taken, left⟩ := exists_run isIdContinueByte_lt t
      rw [taken, left]
      exact ⟨c :: name, rest, rfl, rfl, by simp, rfl⟩
    split at read
    · next zero =>
        split at read
        · exact single read
        · next notDigit =>
            refine numeric (.inl ⟨c, t, rfl, by rw [zero]; rfl, fun _ => ?_⟩) read
            rintro d rest rfl
            rw [isDigit_headD] at notDigit
            by_contra digit
            exact notDigit ⟨d, rest, rfl, by simpa using digit⟩
    next notZero =>
    split at read
    · next minus =>
        obtain rfl := (toNat_eq (by decide)).mp minus
        split at read
        · exact single read
        · next digit =>
            obtain ⟨d, rest, rfl, isDigit⟩ := (isDigit_headD _).mp (not_not.mp digit)
            exact numeric (.inr ⟨d, rest, rfl, isDigit⟩) read
    split at read
    · next digit =>
        refine numeric (.inl ⟨c, t, rfl, digit, fun zero => ?_⟩) read
        exact absurd ((toNat_eq (by decide)).mpr zero) notZero
    rw [if_neg (by omega)] at read
    exact single read
  · rw [is] at read
    simp only [firstToken] at read
    rw [if_neg (by omega), if_neg (by simp [isIdentFirst]; omega), if_neg (by omega), if_neg (by omega),
      if_neg (by simp [isDigit]; omega), if_pos beyond] at read
    cases read

theorem lex_sound (read : lex mem doubles t = some (.ok (token, p))) :
    ∃ w text rest, Ws w ∧ t = w ++ (text ++ rest) ∧ p = encode rest ∧ TokenText doubles token text rest := by
  obtain ⟨w, t', rfl, all, -, -, left⟩ := exists_run isBlank_lt t
  unfold lex jsonNextToken at read
  rw [left] at read
  obtain ⟨text, rest, rfl, here, isToken⟩ := firstToken_sound mem doubles read
  exact ⟨w, text, rest, fun c there => isBlank_iff.mp (all c there), rfl, here, isToken⟩

theorem lex_nil : lex mem doubles [] = some (.ok (.eof, [])) := by
  unfold lex jsonNextToken
  rw [encode_nil]
  rfl

theorem lex_cons (low : c.toNat < 0x80) (notBlank : isBlank c.toNat = false)
    (t : Utf16) : lex mem doubles (c :: t) = firstToken mem doubles (c.toNat :: encode t) := by
  unfold lex jsonNextToken
  rw [encode_cons low, dropWhile_cons, notBlank, if_neg (by simp)]

def Punctuation (c : BitVec 16) : Prop := c = 0x2c ∨ c = 0x3a ∨ c = 0x5b ∨ c = 0x5d ∨ c = 0x7b ∨ c = 0x7d

theorem lex_string {units : Utf16} (text : StringText engine t units) (short : units.length ≤ 2 ^ 30 - 1)
    (rest : Utf16) : lex mem doubles (t ++ rest) = some (.ok (.string units, encode rest)) := by
  obtain ⟨body, chars, rfl⟩ := text
  have given : (StringBuffer.init mem 32).Given [] := StringBuffer.init_given mem (by decide)
  have split : 0x22 :: (body ++ [0x22]) ++ rest = 0x22 :: (body ++ 0x22 :: rest) := by simp
  have parsed := jsParseString_complete mem given chars (by simpa using short) rest
  rw [split, lex_cons mem doubles (by decide) (by decide)]
  simp only [firstToken]
  rw [if_pos (by decide), parsed]
  rfl

theorem lex_ident (first : isIdentFirst c.toNat = true)
    (all : ∀ u ∈ t, isIdContinueByte u.toNat = true) (stop : NotNext isIdContinueByte rest) :
    lex mem doubles (c :: t ++ rest) = some (.ok (.ident ((c :: t).map BitVec.toNat), encode rest)) := by
  obtain ⟨taken, left⟩ := span_run isIdContinueByte_lt all stop
  have letter := id first
  simp [isIdentFirst] at letter
  rw [cons_append, lex_cons mem doubles (by omega) (by simp [isBlank]; omega)]
  simp only [firstToken]
  rw [if_neg (by omega), if_pos first, taken, left]
  rfl

theorem lex_number (text : EngineNumber t) (ends : NumberEnd rest) :
    lex mem doubles (t ++ rest) = some (.ok (.number (numberOf doubles t), encode rest)) := by
  obtain ⟨start, scanned⟩ := jsAtof_complete doubles text ends
  have read : number doubles (encode (t ++ rest)) = some (.ok (.number (numberOf doubles t), encode rest)) := by
    rw [number, scanned]
  rw [← read]
  rcases start with ⟨c, t', is, digit, zero⟩ | ⟨c, t', is, digit⟩
  · rw [is]
    have range := id digit
    simp [isDigit] at range
    rw [lex_cons mem doubles (by omega) (by simp [isBlank]; omega)]
    simp only [firstToken]
    rw [if_neg (by omega), if_neg (by simp [isIdentFirst]; omega), encode_cons (by omega)]
    split
    · next isZero =>
        rw [if_neg]
        intro next
        obtain ⟨d, rest', rfl, digit'⟩ := (isDigit_headD t').mp next
        simp [zero ((toNat_eq (by decide)).mp isZero) d rest' rfl] at digit'
    · rw [if_neg (by omega)]
  · rw [is, lex_cons mem doubles (by decide) (by decide)]
    simp only [firstToken]
    have follows := (isDigit_headD (c :: t')).mpr ⟨c, t', rfl, digit⟩
    rw [if_neg (by decide), if_neg (by decide), if_neg (by decide), if_pos (by decide),
      if_neg (not_not_intro follows), encode_cons (c := 0x2d) (by decide)]

end Tokens

end Json
