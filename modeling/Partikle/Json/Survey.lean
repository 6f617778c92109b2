import Partikle.Json.Correct

/-!
One pass over the characters of a text tells how deep its values are nested and whether all of its escapes and numbers
are those of ECMA-404.
-/

namespace Json

open Text Strings List

section Pass

/-- What is behind a backslash is one of the eight letters, or `u` with four hexadecimal digits. -/
def okEscape : Utf16 → Bool
  | [] => false
  | c :: t =>
    if c = 0x75 then t.length ≥ 4 && (t.take 4).all fun d => (fromHex d.toNat).isSome
    else [0x22, 0x5c, 0x2f, 0x62, 0x66, 0x6e, 0x72, 0x74].contains c

def digitNext (t : Utf16) : Bool := t.head?.any fun c => isDigit c.toNat

/-- `exponent` says that the letter of an exponent was just passed. -/
inductive Mode where
  | outside (exponent : Bool)
  | string
  | escaped

/-- A point has a digit behind it, and a minus sign no zero with another digit behind. -/
def OkNumber (c : BitVec 16) (exponent : Bool) (t : Utf16) : Prop :=
  (c = 0x2e → digitNext t = true) ∧ (c = 0x2d → exponent = true ∨ t.head? ≠ some 0x30 ∨ digitNext t.tail = false)

instance (c : BitVec 16) (exponent : Bool) (t : Utf16) : Decidable (OkNumber c exponent t) :=
  inferInstanceAs (Decidable (_ ∧ _))

def Separator (c : BitVec 16) : Prop := isBlank c.toNat = true ∨ c = 0x2c ∨ c = 0x3a ∨ c = 0x5d ∨ c = 0x7d

instance (c : BitVec 16) : Decidable (Separator c) := inferInstanceAs (Decidable (_ ∨ _))

def depthBehind (c : BitVec 16) (d : Nat) : Nat :=
  if c = 0x5b ∨ c = 0x7b then d + 1 else if c = 0x5d ∨ c = 0x7d then d - 1 else d

/-- From inside `d` values. -/
def survey : Mode → Nat → Utf16 → Bool × Nat
  | _, _, [] => (true, 0)
  | .escaped, d, _ :: t => survey .string d t
  | .string, d, c :: t =>
    let later := survey (if c = 0x5c then .escaped else if c = 0x22 then .outside false else .string) d t
    (decide (c = 0x5c → okEscape t = true) && later.1, later.2)
  | .outside exponent, d, c :: t =>
    let later := survey (if c = 0x22 then .string else .outside (isExponentLetter c.toNat)) (depthBehind c d) t
    (decide (OkNumber c exponent t) && later.1, max (if Separator c then 0 else d + 1) later.2)

/-- From a point outside of strings. -/
abbrev outer : Nat → Utf16 → Bool × Nat := survey (.outside false)

def clean (t : Utf16) : Bool := (outer 0 t).1

def nesting (t : Utf16) : Nat := (outer 0 t).2

/-- A text whose values are `k` deep, and which is clean or not. -/
def Passes (t : Utf16) (k : Nat) (c : Bool) : Prop :=
  ∀ d rest, Ends rest → outer d (t ++ rest) =
    (c && (outer d rest).1, max (d + k) (outer d rest).2)

variable {t rest ds e u w : Utf16} {d : Nat} {c : Bool}

theorem survey_outside (ends : Ends rest) (exponent : Bool) :
    survey (.outside exponent) d rest = outer d rest := by
  cases rest with
  | nil => rfl
  | cons c rest =>
    have other : c ≠ 0x2d := by
      rintro rfl
      exact absurd (ends _ _ rfl) (by decide)
    simp only [survey, OkNumber, other, false_implies]

theorem survey_blank (blanks : Ws w) : outer d (w ++ rest) = outer d rest := by
  induction w with
  | nil => rfl
  | cons c w ih =>
    have ih := ih fun c there => blanks c (.tail _ there)
    have one : outer d (c :: (w ++ rest)) = outer d (w ++ rest) := by
      rcases blanks c (.head _) with rfl | rfl | rfl | rfl <;>
        simp [survey, OkNumber, Separator, depthBehind, isBlank, isExponentLetter]
    rw [cons_append, one, ih]

theorem survey_digit {c : BitVec 16} (digit : isDigit c.toNat = true) (exponent : Bool) :
    survey (.outside exponent) d (c :: rest) = ((outer d rest).1, max (d + 1) (outer d rest).2) := by
  have plain : ∀ n < 0x80, isDigit n = true → ∀ c, c = BitVec.ofNat 16 n → c ≠ 0x2e ∧ c ≠ 0x2d ∧ c ≠ 0x22 ∧
      ¬(c = 0x5b ∨ c = 0x7b) ∧ ¬(c = 0x5d ∨ c = 0x7d) ∧ ¬Separator c ∧ isExponentLetter n = false := by
    simp only [forall_eq]
    decide
  obtain ⟨point, minus, quote, opens, closes, separator, letter⟩ :=
    plain c.toNat (isDigit_lt _ digit) digit c (by simp)
  simp only [survey, OkNumber, depthBehind, point, minus, quote, opens, closes, separator, letter, false_implies,
    and_self, decide_true, Bool.true_and, if_false]

theorem survey_digits (nonempty : ds ≠ []) (all : AllDigits ds) (exponent : Bool) :
    survey (.outside exponent) d (ds ++ rest) = ((outer d rest).1, max (d + 1) (outer d rest).2) := by
  induction ds generalizing exponent with
  | nil => exact absurd rfl nonempty
  | cons c ds ih =>
    rw [cons_append, survey_digit (all c (.head _))]
    rcases eq_or_ne ds [] with rfl | more
    · rfl
    · rw [outer, ih more (fun c there => all c (.tail _ there)) false]
      simp

variable {int frac exp : Utf16}

theorem survey_exponent (exponent : Exponent exp) :
    outer d (exp ++ rest) = ((outer d rest).1,
      max (if exp = [] then 0 else d + 1) (outer d rest).2) := by
  rcases exponent with rfl | ⟨e, sign, digits, letters, signs, nonempty, all, rfl⟩
  · simp
  · have signed : survey (.outside true) d (sign ++ (digits ++ rest)) =
        ((outer d rest).1, max (d + 1) (outer d rest).2) := by
      rcases signs with rfl | rfl | rfl
      · exact survey_digits nonempty all true
      all_goals
        rw [singleton_append, survey]
        simp [survey_digits nonempty all, OkNumber, depthBehind, Separator, isBlank, isExponentLetter]
    rcases letters with rfl | rfl <;>
      simp [survey, OkNumber, depthBehind, Separator, isBlank, isExponentLetter, signed]

theorem digitNext_eq_false : digitNext t = false ↔ NotNext isDigit t := by
  cases t <;> simp [digitNext, NotNext]

theorem survey_fraction (fraction : LooseFraction frac) (exponent : Exponent exp) (ends : NumberEnd rest) :
    outer d (frac ++ (exp ++ rest)) = (decide (frac ≠ [0x2e]) && (outer d rest).1,
      max (if frac = [] ∧ exp = [] then 0 else d + 1) (outer d rest).2) := by
  have last : outer d (exp ++ rest) = _ := survey_exponent exponent
  rcases fraction with rfl | ⟨digits, all, rfl⟩
  · simpa using last
  · have point : ∀ t, outer d (0x2e :: t) =
        (digitNext t && (outer d t).1, max (d + 1) (outer d t).2) := by
      intro t
      simp [survey, OkNumber, depthBehind, Separator, isBlank, isExponentLetter]
    rw [cons_append, point]
    rcases eq_or_ne digits [] with rfl | nonempty
    · rw [nil_append, digitNext_eq_false.mpr (notNext_exponent exponent ends).1, last]
      simp
      split <;> simp
    · have next : digitNext (digits ++ (exp ++ rest)) = true := by
        obtain ⟨c, digits, rfl⟩ := exists_cons_of_ne_nil nonempty
        exact all c (.head _)
      rw [next, outer, survey_digits nonempty all false, last]
      simp [nonempty]
      split <;> simp

theorem passes_number {sign : Utf16} (signs : sign = [] ∨ sign = [0x2d]) (nonempty : int ≠ [])
    (all : AllDigits int) (fraction : LooseFraction frac) (exponent : Exponent exp) :
    Passes (sign ++ (int ++ (frac ++ exp))) 1
      (decide (sign = [] ∨ int.head? ≠ some 0x30 ∨ int.tail = []) && decide (frac ≠ [0x2e])) := by
  intro d rest ends
  have stop : NumberEnd rest := ⟨ends.notNext (by decide), ends.notNext (by decide), ends.notNext (by decide)⟩
  have body : outer d (int ++ (frac ++ (exp ++ rest))) = (decide (frac ≠ [0x2e]) &&
      (outer d rest).1, max (d + 1) (outer d rest).2) := by
    rw [outer, survey_digits nonempty all false, survey_fraction fraction exponent stop]
    split <;> simp
  simp only [append_assoc]
  rcases signs with rfl | rfl
  · simpa using body
  · obtain ⟨c, int, rfl⟩ := exists_cons_of_ne_nil nonempty
    have tail : digitNext (int ++ (frac ++ (exp ++ rest))) = false ↔ int = [] := by
      rcases eq_or_ne int [] with rfl | more
      · simpa [digitNext_eq_false] using notNext_fraction fraction exponent stop
      · obtain ⟨c', int, rfl⟩ := exists_cons_of_ne_nil more
        simpa [digitNext] using all c' (by simp)
    have minus : ∀ t, outer d (0x2d :: t) = (decide (OkNumber 0x2d false t) &&
        (outer d t).1, max (d + 1) (outer d t).2) := by
      intro t
      simp [survey, depthBehind, Separator, isBlank, isExponentLetter]
    rw [singleton_append, minus, body]
    simp [OkNumber, tail, Bool.and_assoc]

/-- An escape behind its backslash, and whether it is one of ECMA-404. -/
def EscapePasses (e : Utf16) (c : Bool) : Prop :=
  ∀ d rest, survey .string d (0x5c :: (e ++ rest)) = (c && (survey .string d rest).1, (survey .string d rest).2)

theorem survey_string_plain (plain : ∀ c ∈ e, c ≠ 0x5c ∧ c ≠ 0x22) :
    survey .string d (e ++ rest) = survey .string d rest := by
  induction e with
  | nil => rfl
  | cons c e ih =>
    obtain ⟨backslash, quote⟩ := plain c (.head _)
    simp only [cons_append, survey, backslash, quote, false_implies, decide_true, Bool.true_and, if_false]
    exact ih fun c there => plain c (.tail _ there)

theorem escapePasses {c : BitVec 16} (plain : ∀ c ∈ e, c ≠ 0x5c ∧ c ≠ 0x22) (b : Bool)
    (is : ∀ rest, okEscape (c :: (e ++ rest)) = b) : EscapePasses (c :: e) b := by
  intro d rest
  have behind : survey .escaped d (c :: (e ++ rest)) = survey .string d rest := survey_string_plain plain
  rw [cons_append, survey, is]
  simp only [if_true, behind]
  simp

theorem hex_plain {n acc : Nat} (digits : hexFrom acc e = some n) : ∀ c ∈ e, c ≠ 0x5c ∧ c ≠ 0x22 := by
  induction e generalizing acc with
  | nil => nofun
  | cons c e ih =>
    obtain ⟨d, digit, digits⟩ := Option.bind_eq_some_iff.mp digits
    intro c' there
    rcases mem_cons.mp there with rfl | later
    · constructor <;> rintro rfl <;> cases digit
    · exact ih digits c' later

theorem hex_all {n acc : Nat} (digits : hexFrom acc e = some n) : e.all (fun d => (fromHex d.toNat).isSome) = true := by
  induction e generalizing acc with
  | nil => rfl
  | cons c e ih =>
    obtain ⟨d, digit, digits⟩ := Option.bind_eq_some_iff.mp digits
    simp [digit, ih digits]

theorem okEscape_of_ne {c : BitVec 16} (other : c ≠ 0x75) (t : Utf16) :
    okEscape (c :: t) = [0x22, 0x5c, 0x2f, 0x62, 0x66, 0x6e, 0x72, 0x74].contains c := if_neg other

theorem okEscape_four {n : Nat} (four : e.length = 4) (digits : hexFrom 0 e = some n) (rest : Utf16) :
    okEscape (0x75 :: (e ++ rest)) = true := by
  have first : (e ++ rest).take 4 = e := by rw [← four, take_left]
  simp only [okEscape, if_true, first, hex_all digits]
  simp [four]

theorem engineEscape_passes (escape : EngineEscape e u) : ∃ c, EscapePasses e c ∧ (c = true → EcmaEscape e u) := by
  cases escape with
  | @same c literal =>
    obtain ⟨control, -, notU, -⟩ := literal
    refine ⟨_, escapePasses (by simp) _ fun rest => okEscape_of_ne notU _, fun ok => .same ?_⟩
    simp only [contains_cons, Bool.or_eq_true, beq_iff_eq] at ok
    rcases ok with rfl | rfl | rfl | rfl | rfl | rfl | rfl | rfl | ok
    any_goals simp
    all_goals first | cases control | cases ok
  | @control c n is =>
    have notU : c ≠ 0x75 := by
      rintro rfl
      cases is
    refine ⟨_, escapePasses (by simp) _ fun rest => okEscape_of_ne notU _, fun ok => ?_⟩
    simp only [contains_cons, Bool.or_eq_true, beq_iff_eq] at ok
    rcases ok with rfl | rfl | rfl | rfl | rfl | rfl | rfl | rfl | ok
    any_goals cases is
    any_goals constructor
    cases ok
  | line is =>
    refine ⟨false, ?_, by simp⟩
    rcases is with rfl | rfl | rfl | rfl | rfl <;> exact escapePasses (by simp) _ fun _ => by simp [okEscape]
  | two _ digits => exact ⟨_, escapePasses (hex_plain digits) _ fun _ => okEscape_of_ne (by decide) _, by simp⟩
  | four four digits =>
    exact ⟨true, escapePasses (hex_plain digits) _ (okEscape_four four digits), fun _ => .unicode four digits⟩
  | @braced c t n letter nonempty digits range =>
    have plain : ∀ c ∈ 0x7b :: (t ++ [0x7d]), c ≠ 0x5c ∧ c ≠ 0x22 := by
      intro c there
      rcases mem_cons.mp there with rfl | there
      · decide
      · rcases mem_append.mp there with inside | last
        · exact hex_plain digits c inside
        · rw [mem_singleton.mp last]
          decide
    refine ⟨false, escapePasses plain _ fun rest => ?_, by simp⟩
    rcases letter with rfl | rfl
    all_goals simp [okEscape, fromHex]

end Pass

section Grammars

variable {Num : Type} {small large : Lexicon} {f g : Utf16 → Num} {n m : Nat}
  {narrow wide : Utf16 → Value Num → Prop} {units t : Utf16}

theorem Chars.mono (escapes : ∀ e u, small.escape e u → large.escape e u) (chars : Chars small t units) :
    Chars large t units := by
  induction chars with
  | nil => exact .nil
  | char printable notQuote notBackslash rest ih => exact .char printable notQuote notBackslash ih
  | escape escape rest ih => exact .escape (escapes _ _ escape) ih

theorem StringText.mono (escapes : ∀ e u, small.escape e u → large.escape e u)
    (text : StringText small t units) : StringText large t units := by
  obtain ⟨body, chars, is⟩ := text
  exact ⟨body, chars.mono escapes, is⟩

theorem Separated.mono {α : Type} {item item' : Utf16 → α → Prop} {vs : List α}
    (items : ∀ t v, item t v → item' t v) (separated : Separated item t vs) : Separated item' t vs := by
  induction separated with
  | one first => exact .one (items _ _ first)
  | cons first rest ih => exact .cons (items _ _ first) ih

variable {v : Value Num}

theorem Element.mono (values : ∀ t v, narrow t v → wide t v) (element : Element narrow t v) : Element wide t v := by
  obtain ⟨w, body, w', blanks, value, blanks', is⟩ := element
  exact ⟨w, body, w', blanks, values _ _ value, blanks', is⟩

variable (escapes : ∀ e u, small.escape e u → large.escape e u)
  (numbers : ∀ t, small.number t → large.number t ∧ f t = g t)

include escapes

theorem Member.mono {member : Utf16 × Value Num} (values : ∀ t v, narrow t v → wide t v)
    (isMember : Member small narrow t member) : Member large wide t member := by
  obtain ⟨w, key, w', element, blanks, text, blanks', isElement, is⟩ := isMember
  exact ⟨w, key, w', element, blanks, text.mono escapes, blanks', isElement.mono values, is⟩

include numbers

theorem Composite.mono (values : ∀ t v, narrow t v → wide t v)
    (composite : Composite small f narrow t v) : Composite large g wide t v := by
  cases composite with
  | false => exact .false
  | true => exact .true
  | null => exact .null
  | num text =>
    obtain ⟨text', same⟩ := numbers _ text
    rw [same]
    exact .num text'
  | str text => exact .str (text.mono escapes)
  | emptyArr blank => exact .emptyArr blank
  | arr items => exact .arr (items.mono fun _ _ element => element.mono values)
  | emptyObj blank => exact .emptyObj blank
  | obj items => exact .obj (items.mono fun _ _ isMember => isMember.mono escapes values)

theorem Nested.mono (le : n ≤ m) (nested : Nested small f n t v) : Nested large g m t v := by
  induction n generalizing m t v with
  | zero => exact absurd nested id
  | succ n ih =>
    obtain _ | m := m
    · omega
    exact Composite.mono escapes numbers (fun _ _ inner => ih (by omega) inner) nested

omit escapes numbers

theorem Nested.deeper (le : n ≤ m) (nested : Nested small f n t v) : Nested small f m t v :=
  nested.mono (fun _ _ escape => escape) (fun _ number => ⟨number, rfl⟩) le

end Grammars

section Values

/-- A lexicon whose words pass, with results that `tag` allows. -/
structure Lexicon.Passed (lex : Lexicon) (tag : Bool → Prop) : Prop where
  yes : tag true
  both : ∀ {a b : Bool}, tag a → tag b → tag (a && b)
  escape : ∀ e u, lex.escape e u → ∃ c, tag c ∧ EscapePasses e c ∧ (c = true → EcmaEscape e u)
  number : ∀ t, lex.number t → ∃ c, tag c ∧ Passes t 1 c ∧ (c = true → EcmaNumber t)

theorem passed_engine : engine.Passed fun _ => True := by
  refine ⟨trivial, fun _ _ => trivial, fun e u escape => ?_, fun t number => ?_⟩
  · obtain ⟨c, passes, clean⟩ := engineEscape_passes escape
    exact ⟨c, trivial, passes, clean⟩
  · obtain ⟨sign, int, frac, exp, signed, fraction, exponent, rfl⟩ := number
    have loose : LooseFraction frac := fraction
    have whole : int ≠ [] ∧ AllDigits int := by
      rcases signed with ⟨-, intPart⟩ | ⟨-, digits⟩
      · exact intPart.allDigits
      · exact digits
    have signs : sign = [] ∨ sign = [0x2d] := signed.imp And.left And.left
    refine ⟨_, trivial, passes_number signs whole.1 whole.2 loose exponent, fun ok => ?_⟩
    simp only [Bool.and_eq_true, decide_eq_true_eq] at ok
    refine ⟨sign, int, frac, exp, signs, ?_, ?_, exponent, rfl⟩
    · rcases signed with ⟨-, intPart⟩ | ⟨rfl, nonempty, all⟩
      · exact intPart
      · obtain ⟨c, int, rfl⟩ := exists_cons_of_ne_nil nonempty
        by_cases zero : c = 0x30
        · obtain rfl : int = [] := by simpa [zero] using ok.1
          exact .inl (by rw [zero])
        · exact .inr ⟨c, int, rfl, zero, all⟩
    · rcases fraction with none | ⟨digits, all, rfl⟩
      · exact .inl none
      · exact .inr ⟨digits, by simpa using ok.2, all, rfl⟩

theorem passed_ecma : ecma404.Passed (· = true) := by
  refine ⟨rfl, fun a b => by simp [a, b], fun e u escape => ⟨true, rfl, ?_, fun _ => escape⟩,
    fun t number => ⟨true, rfl, ?_, fun _ => number⟩⟩
  · cases escape with
    | same is => exact escapePasses (by simp) _ fun _ => by rcases is with rfl | rfl | rfl <;> simp [okEscape]
    | unicode four digits => exact escapePasses (hex_plain digits) _ (okEscape_four four digits)
    | _ => exact escapePasses (by simp) _ fun _ => by simp [okEscape]
  · obtain ⟨sign, int, frac, exp, signs, intPart, fraction, exponent, rfl⟩ := number
    obtain ⟨nonempty, all⟩ := intPart.allDigits
    have loose : LooseFraction frac := by
      refine fraction.imp_right ?_
      rintro ⟨digits, -, all, is⟩
      exact ⟨digits, all, is⟩
    have short : int.head? ≠ some 0x30 ∨ int.tail = [] := by
      rcases intPart with rfl | ⟨c, rest, rfl, notZero, -⟩
      · exact .inr rfl
      · exact .inl (by simpa using notZero)
    have digits : frac ≠ [0x2e] := by
      rcases fraction with rfl | ⟨digits, some', -, rfl⟩
      · simp
      · simpa using some'
    have passes := passes_number signs nonempty all loose exponent
    rwa [decide_eq_true (.inr short), decide_eq_true digits] at passes

variable {Num : Type} {lex : Lexicon} {tag : Bool → Prop} {f : Utf16 → Num} {n : Nat}
  {t units : Utf16} {v : Value Num}

section Strings

theorem Chars.passes (passed : lex.Passed tag) (chars : Chars lex t units) :
    ∃ c, tag c ∧
    (∀ d rest, survey .string d (t ++ rest) = (c && (survey .string d rest).1, (survey .string d rest).2)) ∧
      (c = true → Chars ecma404 t units) := by
  induction chars with
  | nil => exact ⟨true, passed.yes, fun _ _ => by simp, fun _ => .nil⟩
  | @char c t v printable notQuote notBackslash _ ih =>
    obtain ⟨b, tagged, passes, clean⟩ := ih
    refine ⟨b, tagged, fun d rest => ?_, fun ok => .char printable notQuote notBackslash (clean ok)⟩
    have one : ∀ e ∈ [c], e ≠ 0x5c ∧ e ≠ 0x22 := by simpa using ⟨notBackslash, notQuote⟩
    exact (survey_string_plain one).trans (passes d rest)
  | @escape e u t v escape _ ih =>
    obtain ⟨b, tagged, passes, clean⟩ := ih
    obtain ⟨b', tagged', passes', clean'⟩ := passed.escape e u escape
    refine ⟨b' && b, passed.both tagged' tagged, fun d rest => ?_, fun ok => ?_⟩
    · rw [cons_append, append_assoc, passes', passes, Bool.and_assoc]
    · rw [Bool.and_eq_true] at ok
      exact .escape (clean' ok.1) (clean ok.2)

theorem StringText.passes (passed : lex.Passed tag) (text : StringText lex t units) :
    ∃ c, tag c ∧ (∀ d rest, outer d (t ++ rest) = (c && (outer d rest).1,
      max (d + 1) (outer d rest).2)) ∧ (c = true → StringText ecma404 t units) := by
  obtain ⟨body, chars, rfl⟩ := text
  obtain ⟨c, tagged, passes, clean⟩ := chars.passes passed
  refine ⟨c, tagged, fun d rest => ?_, fun ok => ⟨body, clean ok, rfl⟩⟩
  have closes : survey .string d (0x22 :: rest) = outer d rest := by simp [survey]
  have opens : ∀ t, outer d (0x22 :: t) = ((survey .string d t).1, max (d + 1) (survey .string d t).2) := by
    intro t
    simp [survey, OkNumber, depthBehind, Separator, isBlank]
  rw [cons_append, opens, append_assoc, passes, singleton_append, closes]

end Strings

/-- What an item at depth `n` is found to be: of a depth of its own, and an item of ECMA-404 if it is clean. -/
def Surveys {α : Type} (tag : Bool → Prop) (n : Nat) (item ecma : Nat → Utf16 → α → Prop) : Prop :=
  ∀ t a, item n t a → ∃ k c, tag c ∧ k ≤ n ∧ Passes t k c ∧ item k t a ∧ (c = true → ecma k t a)

variable (lex f) in
def ElementAt (k : Nat) : Utf16 → Value Num → Prop := Element (Nested lex f k)

variable (lex f) in
def MemberAt (k : Nat) : Utf16 → Utf16 × Value Num → Prop := Member lex (Nested lex f k)

theorem Passes.blank {w w' : Utf16} {k : Nat} {c : Bool} (blanks : Ws w) (blanks' : Ws w')
    (passes : Passes t k c) : Passes (w ++ (t ++ w')) k c := by
  intro d rest ends
  rw [append_assoc, append_assoc, survey_blank blanks, passes d _ (ends_blank blanks' ends), survey_blank blanks']

theorem surveys_elements (surveys : Surveys tag n (Nested lex f) (Nested ecma404 f)) :
    Surveys tag n (ElementAt lex f) (ElementAt ecma404 f) := by
  rintro t v ⟨w, body, w', blanks, nested, blanks', rfl⟩
  obtain ⟨k, c, tagged, le, passes, nested, clean⟩ := surveys body v nested
  exact ⟨k, c, tagged, le, passes.blank blanks blanks', ⟨w, body, w', blanks, nested, blanks', rfl⟩,
    fun ok => ⟨w, body, w', blanks, clean ok, blanks', rfl⟩⟩

theorem survey_separator {c : BitVec 16} (is : c = 0x2c ∨ c = 0x3a) (d : Nat) (t : Utf16) :
    outer d (c :: t) = outer d t := by
  rcases is with rfl | rfl <;> simp [survey, OkNumber, depthBehind, Separator, isExponentLetter]

theorem surveys_members (passed : lex.Passed tag) (surveys : Surveys tag n (Nested lex f) (Nested ecma404 f)) :
    Surveys tag n (MemberAt lex f) (MemberAt ecma404 f) := by
  rintro t member ⟨w, key, w', element, blanks, text, blanks', isElement, rfl⟩
  obtain ⟨k, c, tagged, le, passes, isElement, clean⟩ := surveys_elements surveys element member.2 isElement
  obtain ⟨c', tagged', passes', clean'⟩ := text.passes passed
  have positive : 1 ≤ k := by
    obtain ⟨_, _, _, _, nested, _⟩ := isElement
    exact Nat.pos_of_ne_zero fun zero => by rwa [zero] at nested
  refine ⟨k, c' && c, passed.both tagged' tagged, le, fun d rest ends => ?_, ?_, fun ok => ?_⟩
  · simp only [append_assoc, cons_append]
    rw [survey_blank blanks, passes', survey_blank blanks', survey_separator (.inr rfl), passes d rest ends,
      Bool.and_assoc, ← max_assoc, Nat.max_eq_right (show d + 1 ≤ d + k by omega)]
  · exact ⟨w, key, w', element, blanks, text, blanks', isElement, rfl⟩
  · rw [Bool.and_eq_true] at ok
    exact ⟨w, key, w', element, blanks, clean' ok.1, blanks', clean ok.2, rfl⟩

theorem surveys_separated {α : Type} {item ecma : Nat → Utf16 → α → Prop}
    (deeper : ∀ {k k' t a}, k ≤ k' → item k t a → item k' t a)
    (deeper' : ∀ {k k' t a}, k ≤ k' → ecma k t a → ecma k' t a)
    (passed : lex.Passed tag) (surveys : Surveys tag n item ecma) :
    Surveys tag n (fun k => Separated (item k)) (fun k => Separated (ecma k)) := by
  intro t as separated
  induction separated with
  | one first =>
    obtain ⟨k, c, tagged, le, passes, first, clean⟩ := surveys _ _ first
    exact ⟨k, c, tagged, le, passes, .one first, fun ok => .one (clean ok)⟩
  | @cons t ts _ _ first _ ih =>
    obtain ⟨k, c, tagged, le, passes, first, clean⟩ := surveys _ _ first
    obtain ⟨k', c', tagged', le', passes', rest, clean'⟩ := ih
    have left := Nat.le_max_left k k'
    have right := Nat.le_max_right k k'
    refine ⟨max k k', c && c', passed.both tagged tagged', Nat.max_le.mpr ⟨le, le'⟩, fun d rest ends => ?_, ?_,
      fun ok => ?_⟩
    · rw [append_assoc, cons_append, passes d _ (ends_cons (.inl rfl) _), survey_separator (.inl rfl),
        passes' d rest ends, Bool.and_assoc, ← max_assoc, ← Nat.add_max_add_left]
    · exact .cons (deeper left first) (rest.mono fun _ _ => deeper right)
    · rw [Bool.and_eq_true] at ok
      exact .cons (deeper' left (clean ok.1)) ((clean' ok.2).mono fun _ _ => deeper' right)

/-- What is between brackets is one level deeper. -/
theorem passes_brackets {l r : BitVec 16} (brackets : l = 0x5b ∧ r = 0x5d ∨ l = 0x7b ∧ r = 0x7d) {k : Nat} {c : Bool}
    (inside : ∀ d rest, let later := outer d (r :: rest)
      (outer d (t ++ r :: rest)).1 = (c && later.1) ∧
        max d (outer d (t ++ r :: rest)).2 = max (d + k) later.2) :
    Passes (l :: (t ++ [r])) (k + 1) c := by
  intro d rest ends
  have opens : ∀ t, outer d (l :: t) =
      ((outer (d + 1) t).1, max (d + 1) (outer (d + 1) t).2) := by
    intro t
    rcases brackets with ⟨rfl, -⟩ | ⟨rfl, -⟩ <;>
      simp [survey, OkNumber, depthBehind, Separator, isBlank, isExponentLetter]
  have closes : outer (d + 1) (r :: rest) = outer d rest := by
    rcases brackets with ⟨-, rfl⟩ | ⟨-, rfl⟩ <;>
      simp [survey, OkNumber, depthBehind, Separator, isExponentLetter]
  obtain ⟨ok, deep⟩ := inside (d + 1) rest
  rw [cons_append, append_assoc, singleton_append, opens, ok, deep, closes, Nat.add_right_comm, Nat.add_assoc]

theorem Passes.brackets {l r : BitVec 16} (brackets : l = 0x5b ∧ r = 0x5d ∨ l = 0x7b ∧ r = 0x7d) {k : Nat} {c : Bool}
    (passes : Passes t k c) : Passes (l :: (t ++ [r])) (k + 1) c := by
  refine passes_brackets brackets fun d rest => ?_
  rw [passes d _ (ends_cons (by rcases brackets with ⟨-, rfl⟩ | ⟨-, rfl⟩ <;> simp) rest)]
  exact ⟨rfl, by simp⟩

theorem passes_word
    (is : t = [0x66, 0x61, 0x6c, 0x73, 0x65] ∨ t = [0x74, 0x72, 0x75, 0x65] ∨ t = [0x6e, 0x75, 0x6c, 0x6c]) :
    Passes t 1 true := by
  intro d rest ends
  have last := survey_outside (d := d) ends true
  rcases is with rfl | rfl | rfl <;>
    simp [survey, OkNumber, depthBehind, Separator, isBlank, isExponentLetter, last]

theorem surveys_nested (passed : lex.Passed tag) : ∀ n, Surveys tag n (Nested lex f) (Nested ecma404 f) := by
  intro n
  induction n with
  | zero => exact fun _ _ nested => absurd nested id
  | succ n ih =>
    have elements := surveys_separated (fun le element => element.mono fun _ _ nested => nested.deeper le)
      (fun le element => element.mono fun _ _ nested => nested.deeper le) passed (surveys_elements ih)
    have members := surveys_separated
      (fun le member => member.mono (fun _ _ escape => escape) fun _ _ nested => nested.deeper le)
      (fun le member => member.mono (fun _ _ escape => escape) fun _ _ nested => nested.deeper le) passed
      (surveys_members passed ih)
    have scalar {t v} (c : Bool) (tagged : tag c) (passes : Passes t 1 c) (nested : Nested lex f 1 t v)
        (clean : c = true → Nested ecma404 f 1 t v) : ∃ k c, tag c ∧ k ≤ n + 1 ∧ Passes t k c ∧ Nested lex f k t v ∧
        (c = true → Nested ecma404 f k t v) := ⟨1, c, tagged, by omega, passes, nested, clean⟩
    have empty {w : Utf16} {l r : BitVec 16} (blank : Ws w)
        (brackets : l = 0x5b ∧ r = 0x5d ∨ l = 0x7b ∧ r = 0x7d) : Passes (l :: (w ++ [r])) 1 true :=
      passes_brackets (k := 0) brackets fun d rest => by rw [survey_blank blank]; exact ⟨rfl, rfl⟩
    intro t v nested
    cases nested with
    | false => exact scalar _ passed.yes (passes_word (.inl rfl)) .false fun _ => .false
    | true => exact scalar _ passed.yes (passes_word (.inr (.inl rfl))) .true fun _ => .true
    | null => exact scalar _ passed.yes (passes_word (.inr (.inr rfl))) .null fun _ => .null
    | num text =>
      obtain ⟨c, tagged, passes, clean⟩ := passed.number t text
      exact scalar c tagged passes (.num text) fun ok => .num (clean ok)
    | str text =>
      obtain ⟨c, tagged, passes, clean⟩ := text.passes passed
      exact scalar c tagged (fun d rest _ => passes d rest) (.str text) fun ok => .str (clean ok)
    | emptyArr blank =>
      exact scalar _ passed.yes (empty blank (.inl ⟨rfl, rfl⟩)) (.emptyArr blank) fun _ => .emptyArr blank
    | emptyObj blank =>
      exact scalar _ passed.yes (empty blank (.inr ⟨rfl, rfl⟩)) (.emptyObj blank) fun _ => .emptyObj blank
    | arr items =>
      obtain ⟨k, c, tagged, le, passes, items, clean⟩ := elements _ _ items
      exact ⟨k + 1, c, tagged, by omega, passes.brackets (.inl ⟨rfl, rfl⟩), .arr items, fun ok => .arr (clean ok)⟩
    | obj items =>
      obtain ⟨k, c, tagged, le, passes, items, clean⟩ := members _ _ items
      exact ⟨k + 1, c, tagged, by omega, passes.brackets (.inr ⟨rfl, rfl⟩), .obj items, fun ok => .obj (clean ok)⟩

theorem JsonText.surveyed (passed : lex.Passed tag) (text : JsonText lex f n t v) :
    tag (clean t) ∧ nesting t ≤ n ∧ JsonText lex f (nesting t) t v ∧
      (clean t = true → JsonText ecma404 f (nesting t) t v) := by
  obtain ⟨k, c, tagged, le, passes, text, ecma⟩ := surveys_elements (surveys_nested passed n) t v text
  have whole := passes 0 [] nofun
  rw [append_nil] at whole
  have same : clean t = c ∧ nesting t = k := by simp [clean, nesting, whole, survey]
  rw [same.1, same.2]
  exact ⟨tagged, le, text, ecma⟩

end Values

end Json
