import Partikle.Json.Survey

/-!
`JSON.parse` against the grammar of ECMA-404: it reads every text of that grammar that its stack and
its conversion to bytes allow, and some other texts.
-/

namespace Json

open Text Strings List

variable {Num : Type} (mem : Memory) (doubles : Doubles Num)

section Texts

variable {t : Utf16} {stack : Nat} {v : Value Num}

theorem jsParseJson2_sound (read : jsParseJson2 mem doubles stack (encode t) = some (.ok v)) :
    JsonText engine (numberOf doubles) stack t v := by
  obtain ⟨s, first, read⟩ := Result.bind_eq_ok.mp read
  obtain ⟨⟨v', s'⟩, value, last⟩ := Result.bind_eq_ok.mp read
  dsimp only at last
  split at last
  · next atEnd =>
      cases last
      obtain ⟨w, text, rest, blanks, rfl, nested, here⟩ :=
        jsonParseValue_sound mem doubles _ stack t s v s' first value (.inl atEnd)
      obtain ⟨token, p⟩ := s'
      obtain ⟨w', text', rest', blanks', rfl, -, isToken⟩ := lex_sound mem doubles here
      subst atEnd
      obtain ⟨rfl, rfl⟩ := isToken
      exact ⟨w, text, w', blanks, nested, blanks', by simp⟩
  · cases last

theorem jsParseJson2_complete (short : t.length ≤ 2 ^ 30 - 1) (text : JsonText engine (numberOf doubles) stack t v) :
    jsParseJson2 mem doubles stack (encode t) = some (.ok v) := by
  obtain ⟨w, body, w', blanks, nested, blanks', rfl⟩ := text
  have few : body.length ≤ (w ++ (body ++ w')).length := by
    simp only [length_append]
    omega
  have bytes := (length_encode16 false (w ++ (body ++ w'))).1
  have atEnd : At mem doubles w' (.eof, []) := by
    have blank := lex_blank mem doubles blanks' []
    rw [append_nil] at blank
    exact blank.trans (lex_nil mem doubles)
  have ends : Ends w' := by
    have blank : Ends (w' ++ []) := ends_blank blanks' nofun
    rwa [append_nil] at blank
  have complete := jsonParseValue_complete mem doubles stack (few.trans (bytes.trans (Nat.le_succ _)))
    (few.trans short)
  obtain ⟨s, here, read⟩ := complete w body w' v (.eof, []) blanks nested (le_refl _) ends atEnd
  exact Result.bind_eq_ok.mpr ⟨s, here, Result.bind_eq_ok.mpr ⟨_, read, rfl⟩⟩

def Convertible (str : JsString) : Prop := ¬(str.isWideChar ∧ 2 ^ 31 ≤ 3 * str.units.length)

theorem jsJsonParse_eq_ok (str : LiveString) :
    jsJsonParse mem doubles stack str.toJsString = some (.ok v) ↔ Convertible str.toJsString ∧
      JsonText engine (numberOf doubles) stack str.units v := by
  have bytes := toCStringLen2_eq mem false str
  unfold jsJsonParse Convertible
  split at bytes
  · next long =>
      rw [bytes]
      constructor
      · intro thrown
        cases thrown
      · rintro ⟨fits, -⟩
        exact absurd long fits
  · next fits =>
      rw [bytes]
      have short : str.units.length ≤ 2 ^ 30 - 1 := by
        have := str.short
        omega
      exact ⟨fun read => ⟨fits, jsParseJson2_sound mem doubles read⟩,
        fun ⟨_, text⟩ => jsParseJson2_complete mem doubles short text⟩

end Texts

variable {n m : Nat} {t : Utf16}

theorem EcmaEscape.engine {e u : Utf16} (escape : EcmaEscape e u) : EngineEscape e u := by
  cases escape with
  | same is =>
    refine .same ?_
    unfold Literal
    rcases is with rfl | rfl | rfl <;> decide
  | unicode four digits => exact .four four digits
  | _ => exact .control (by decide)

theorem EcmaNumber.engine (number : EcmaNumber t) : EngineNumber t := by
  obtain ⟨sign, int, frac, exp, signed, intPart, fraction, exponent, is⟩ := number
  refine ⟨sign, int, frac, exp, ?_, ?_, exponent, is⟩
  · rcases signed with rfl | rfl
    · exact .inl ⟨rfl, intPart⟩
    · exact .inr ⟨rfl, intPart.allDigits⟩
  · rcases fraction with none | ⟨digits, -, all, is⟩
    · exact .inl none
    · exact .inr ⟨digits, all, is⟩

section Ecma

variable {denote : Utf16 → Num}

section Numbers

variable (correct : ∀ t, EcmaNumber t → numberOf doubles t = denote t)

include correct

theorem JsonText.engine (le : n ≤ m) {v : Value Num} (text : JsonText ecma404 denote n t v) :
    JsonText Json.engine (numberOf doubles) m t v :=
  text.mono fun _ _ nested => nested.mono (fun _ _ escape => EcmaEscape.engine escape)
    (fun t number => ⟨EcmaNumber.engine number, (correct t number).symm⟩) le

/-- A text is read as ECMA-404 has it, except one that has the form of a JSON text with a word that only the engine
takes and is read, and one without such a word that is too long or nested too deep. -/
theorem jsJsonParse_exact_iff (stack : Nat) (str : LiveString) :
    (∀ v, jsJsonParse mem doubles stack str.toJsString = some (.ok v) ↔ ∃ n, JsonText ecma404 denote n str.units v) ↔
      ∀ n v, JsonText Json.engine (numberOf doubles) n str.units v →
        (clean str.units = true ↔ Convertible str.toJsString ∧ nesting str.units ≤ stack) := by
  have cleaned {n v} (ecma : JsonText ecma404 denote n str.units v) : clean str.units = true :=
    (ecma.surveyed passed_ecma).1
  have denoted {n v} (ecma : JsonText ecma404 (numberOf doubles) n str.units v) :
      JsonText ecma404 denote n str.units v :=
    ecma.mono fun _ _ nested =>
      nested.mono (fun _ _ escape => escape) (fun t number => ⟨number, correct t number⟩) le_rfl
  simp only [jsJsonParse_eq_ok]
  constructor
  · intro exact n v text
    obtain ⟨-, -, text, ecma⟩ := text.surveyed passed_engine
    constructor
    · intro isClean
      obtain ⟨fits, inside⟩ := (exact v).mpr ⟨_, denoted (ecma isClean)⟩
      exact ⟨fits, (inside.surveyed passed_engine).2.1⟩
    · rintro ⟨fits, shallow⟩
      obtain ⟨n, ecma⟩ := (exact v).mp ⟨fits, text.mono fun _ _ nested => nested.deeper shallow⟩
      exact cleaned ecma
  · intro agree v
    constructor
    · rintro ⟨fits, text⟩
      obtain ⟨-, shallow, -, ecma⟩ := text.surveyed passed_engine
      exact ⟨_, denoted (ecma ((agree _ _ text).mpr ⟨fits, shallow⟩))⟩
    · rintro ⟨n, ecma⟩
      have text : JsonText Json.engine (numberOf doubles) n str.units v := ecma.engine doubles correct le_rfl
      obtain ⟨fits, shallow⟩ := (agree n v text).mp (cleaned ecma)
      exact ⟨fits, (text.surveyed passed_engine).2.2.1.mono fun _ _ nested => nested.deeper shallow⟩

end Numbers

end Ecma

section Escapes

def integers : Doubles Int where
  ofUint64 n := n
  neg x := -x
  strtod _ := 0

/-- An object with an array of a number and a string with an escape, and with `null`. -/
def nestedText : LiveString where
  isWideChar := false
  units := [0x7b, 0x22, 0x61, 0x22, 0x3a, 0x5b, 0x31, 0x2c, 0x20, 0x22, 0x5c, 0x6e, 0x22, 0x5d, 0x2c, 0x22, 0x62, 0x22,
    0x3a, 0x6e, 0x75, 0x6c, 0x6c, 0x7d]
  short := by decide
  narrow := by simp

theorem jsJsonParse_nestedText : jsJsonParse .all integers 3 nestedText.toJsString =
    some (.ok (.obj [([0x61], .arr [.num 1, .str [0x0a]]), ([0x62], .null)])) := by
  have blank : Ws [] := by simp [Ws]
  have space : Ws [0x20] := by simp [Ws]
  have one : EcmaNumber [0x31] :=
    ⟨[], [0x31], [], [], .inl rfl, .inr ⟨0x31, [], rfl, by decide, by simp [AllDigits]; decide⟩, .inl rfl, .inl rfl,
      rfl⟩
  have letter : ecma404.escape [0x6e] [0x0a] := EcmaEscape.newline
  have line : StringText ecma404 [0x22, 0x5c, 0x6e, 0x22] [0x0a] := ⟨[0x5c, 0x6e], .escape letter .nil, rfl⟩
  have plainly {k t v} (value : Nested ecma404 (numberOf integers) k t v) : Element (Nested ecma404 _ k) t v :=
    ⟨[], t, [], blank, value, blank, by simp⟩
  have member {t v} (c : BitVec 16) (plain : 0x20 ≤ c.toNat ∧ c ≠ 0x22 ∧ c ≠ 0x5c)
      (value : Nested ecma404 (numberOf integers) 2 t v) :
      Member ecma404 (Nested ecma404 (numberOf integers) 2) (0x22 :: c :: 0x22 :: 0x3a :: t) ([c], v) :=
    ⟨[], _, [], t, blank, ⟨[c], .char plain.1 plain.2.1 plain.2.2 .nil, rfl⟩, blank, plainly value, rfl⟩
  have string : Element (Nested ecma404 (numberOf integers) 1) [0x20, 0x22, 0x5c, 0x6e, 0x22] (.str [0x0a]) :=
    ⟨[0x20], _, [], space, .str line, blank, rfl⟩
  have number : Nested ecma404 (numberOf integers) 1 [0x31] (.num 1) := Composite.num one
  have array : Nested ecma404 (numberOf integers) 2 _ (.arr [.num 1, .str [0x0a]]) :=
    .arr (.cons (plainly number) (.one string))
  have text : JsonText ecma404 (numberOf integers) 3 nestedText.units
      (.obj [([0x61], .arr [.num 1, .str [0x0a]]), ([0x62], .null)]) :=
    plainly (k := 3) (.obj (.cons (member 0x61 (by decide) array) (.one (member 0x62 (by decide) .null))))
  refine ((jsJsonParse_exact_iff .all integers (fun _ _ => rfl) 3 nestedText).mpr (fun _ _ _ => ?_) _).mpr ⟨3, text⟩
  exact iff_of_true (by decide) ⟨by simp [Convertible, nestedText], by decide⟩

def verticalTab : LiveString where
  isWideChar := false
  units := [0x22, 0x5c, 0x76, 0x22]
  short := by decide
  narrow := by simp

theorem verticalTab_accepted :
    jsJsonParse .all integers 1 verticalTab.toJsString = some (.ok (.str [0x0b])) ∧ ¬∃ n v,
      JsonText ecma404 (numberOf integers) n verticalTab.units v := by
  have blank : Ws [] := by simp [Ws]
  refine ⟨(jsJsonParse_eq_ok .all integers verticalTab).mpr ⟨by simp [Convertible, verticalTab], ?_⟩, ?_⟩
  · have escape : engine.escape [0x76] [0x0b] := EngineEscape.control (n := 0x0b) (by decide)
    exact ⟨[], _, [], blank, .str ⟨[0x5c, 0x76], .escape escape .nil, rfl⟩, blank, rfl⟩
  · rintro ⟨n, v, text⟩
    exact absurd (text.surveyed passed_ecma).1 (by decide)

end Escapes

end Json
