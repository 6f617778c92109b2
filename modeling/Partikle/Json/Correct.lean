import Partikle.Json.Tokens

/-!
`JSON.parse` accepts exactly the texts of the engine's grammar that are not nested too deeply,
and returns the value that the grammar gives them.
-/

namespace Json

open Text Strings List

variable {Num : Type} (mem : Memory) (doubles : Doubles Num)

section Positions

variable {t rest : Utf16} {s s' : State Num} {c : BitVec 16}

abbrev At (t : Utf16) (s : State Num) : Prop := lex mem doubles t = some (.ok s)

variable {mem doubles}

theorem at_char (here : At mem doubles t s) (is : s.1.isChar c.toNat = true) :
    ∃ w rest, Ws w ∧ t = w ++ c :: rest ∧ s.2 = encode rest := by
  obtain ⟨token, p⟩ := s
  obtain ⟨w, text, rest, blanks, rfl, behind, isToken⟩ := lex_sound mem doubles here
  cases token with
  | char n =>
    obtain ⟨u, rfl, same⟩ := isToken
    have equal : u = c := by
      rw [← same] at is
      exact BitVec.eq_of_toNat_eq (by simpa [Token.isChar] using is)
    subst equal
    exact ⟨w, rest, blanks, rfl, behind⟩
  | _ => simp [Token.isChar] at is

def Token.Follows (token : Token Num) : Prop := token = .eof ∨ ∃ c, token = .char c

theorem notNext_of_follows (here : At mem doubles t s) (follows : s.1.Follows) : NotNext isExponentLetter t := by
  rintro c rest rfl
  by_contra letter
  have is := isExponentLetter_iff.mp (Bool.not_eq_false _ ▸ letter)
  obtain ⟨run, rest', rfl, all, stop, -⟩ := exists_run isIdContinueByte_lt rest
  have read := lex_ident mem doubles (c := c) (by rcases is with rfl | rfl <;> decide) all stop
  rw [cons_append, here] at read
  obtain ⟨rfl⟩ := Except.ok.inj (Option.some.inj read)
  rcases follows with is | ⟨n, is⟩ <;> cases is

end Positions

def Sound (value : State Num → Result (Value Num × State Num))
    (relation : Utf16 → Value Num → Prop) : Prop :=
  ∀ t s v s', At mem doubles t s → value s = some (.ok (v, s')) → s'.1.Follows →
    ∃ w text rest, Ws w ∧ t = w ++ (text ++ rest) ∧ relation text v ∧ At mem doubles rest s'

variable {token : Token Num} {v : Value Num} {s₁ s : State Num}

section Soundness

variable {mem doubles}

variable {value : State Num → Result (Value Num × State Num)} {relation : Utf16 → Value Num → Prop}
  {t : Utf16} {s' : State Num} {fuel : Nat}

theorem Token.follows_of_isChar {c : Nat} (is : token.isChar c = true) : token.Follows := by
  cases token with
  | char n => exact .inr ⟨n, rfl⟩
  | _ => simp [isChar] at is

section

variable (sound : Sound mem doubles value relation) (here : At mem doubles t s)

include sound here

theorem sound_element (read : value s = some (.ok (v, s'))) {c : BitVec 16} (is : s'.1.isChar c.toNat = true) :
    ∃ text rest, t = text ++ c :: rest ∧ Element relation text v ∧ s'.2 = encode rest := by
  obtain ⟨w, text, rest, blanks, rfl, isValue, here'⟩ := sound t s v s' here read (Token.follows_of_isChar is)
  obtain ⟨w', rest', blanks', rfl, behind⟩ := at_char here' is
  exact ⟨w ++ (text ++ w'), rest', by simp, ⟨w, text, w', blanks, isValue, blanks', rfl⟩, behind⟩

theorem parseElements_sound {vs acc : List (Value Num)}
    (read : parseElements (jsonNextToken mem doubles) value fuel acc s = some (.ok (vs, s')))
    (close : s'.1.isChar 0x5d = true) :
    ∃ text rest vs', t = text ++ 0x5d :: rest ∧ Separated (Element relation) text vs' ∧ vs = acc ++ vs' ∧
      s'.2 = encode rest := by
  induction fuel generalizing t s acc with
  | zero => cases read
  | succ fuel ih =>
    obtain ⟨⟨v, s₁⟩, first, read⟩ := Result.bind_eq_ok.mp read
    simp only at read
    split at read
    · next comma =>
        obtain ⟨text, rest, rfl, element, behind⟩ := sound_element sound here first (c := 0x2c) comma
        obtain ⟨s₂, next, read⟩ := Result.bind_eq_ok.mp read
        rw [behind] at next
        obtain ⟨text', rest', vs', rfl, separated, rfl, behind'⟩ := ih next read
        exact ⟨text ++ 0x2c :: text', rest', v :: vs', by simp, .cons element separated, by simp, behind'⟩
    · cases read
      obtain ⟨text, rest, rfl, element, behind⟩ := sound_element sound here first (c := 0x5d) close
      exact ⟨text, rest, [v], rfl, .one element, rfl, behind⟩

theorem parseMembers_sound {ms acc : List (Utf16 × Value Num)}
    (read : parseMembers (jsonNextToken mem doubles) value fuel acc s = some (.ok (ms, s')))
    (close : s'.1.isChar 0x7d = true) :
    ∃ text rest ms', t = text ++ 0x7d :: rest ∧ Separated (Member engine relation) text ms' ∧
      ms = ms'.foldl (fun members member => define members member.1 member.2) acc ∧ s'.2 = encode rest := by
  induction fuel generalizing t s acc with
  | zero => cases read
  | succ fuel ih =>
    simp only [parseMembers] at read
    split at read
    · next key is =>
        obtain ⟨w, name, rest, blanks, rfl, behind, text⟩ := lex_sound mem doubles here
        simp only [is] at text
        obtain ⟨s₁, next, read⟩ := Result.bind_eq_ok.mp read
        rw [behind] at next
        obtain ⟨s₂, expect, read⟩ := Result.bind_eq_ok.mp read
        unfold jsonParseExpect at expect
        split at expect
        · next colon =>
            obtain ⟨w', rest, blanks', rfl, colon'⟩ := at_char next (c := 0x3a) colon
            rw [colon'] at expect
            obtain ⟨⟨v, s₃⟩, first, read⟩ := Result.bind_eq_ok.mp read
            have member : ∀ {element : Utf16}, Element relation element v →
                Member engine relation (w ++ (name ++ (w' ++ 0x3a :: element))) (key, v) :=
              fun element => ⟨w, name, w', _, blanks, text, blanks', element, rfl⟩
            split at read
            · next comma =>
                obtain ⟨element, rest', rfl, isElement, behind⟩ :=
                  sound_element sound expect first (c := 0x2c) comma
                obtain ⟨s₄, next, read⟩ := Result.bind_eq_ok.mp read
                rw [behind] at next
                obtain ⟨text', rest'', ms', rfl, separated, rfl, behind'⟩ := ih next read
                exact ⟨_, rest'', (key, v) :: ms', by simp, .cons (member isElement) separated, rfl, behind'⟩
            · cases read
              obtain ⟨element, rest', rfl, isElement, behind⟩ :=
                sound_element sound expect first (c := 0x7d) close
              exact ⟨_, rest', [(key, v)], by simp, .one (member isElement), rfl, behind⟩
        · cases expect
    · cases read

end

theorem sound_scalar {v' : Value Num} {w text rest : Utf16} {p : List Nat} (behind : p = encode rest)
    (blanks : Ws w) (isValue : relation text v)
    (read : ((jsonNextToken mem doubles p).bind fun s => some (.ok (v, s))) = some (.ok (v', s'))) :
    ∃ w₁ text₁ rest₁, Ws w₁ ∧ w ++ (text ++ rest) = w₁ ++ (text₁ ++ rest₁) ∧ relation text₁ v' ∧
      At mem doubles rest₁ s' := by
  obtain ⟨s₁, next, same⟩ := Result.bind_eq_ok.mp read
  cases same
  rw [behind] at next
  exact ⟨w, text, rest, blanks, rfl, isValue, next⟩

theorem parseArray_sound (sound : Sound mem doubles value relation) {vs : List (Value Num)}
    (here : At mem doubles t s) (read : parseArray (jsonNextToken mem doubles) value fuel s = some (.ok (vs, s₁)))
    (close : jsonParseExpect (jsonNextToken mem doubles) s₁ 0x5d = some (.ok s')) :
    ∃ text rest, t = text ++ rest ∧ Composite engine (numberOf doubles) relation (0x5b :: text) (.arr vs) ∧
      At mem doubles rest s' := by
  unfold jsonParseExpect at close
  split at close
  · next bracket =>
      unfold parseArray at read
      split at read
      · cases read
        obtain ⟨w, rest, blanks, rfl, behind⟩ := at_char here (c := 0x5d) bracket
        rw [behind] at close
        exact ⟨w ++ [0x5d], rest, by simp, .emptyArr blanks, close⟩
      · obtain ⟨text, rest, vs', rfl, items, same, behind⟩ :=
          parseElements_sound sound here read bracket
        subst same
        rw [behind] at close
        exact ⟨text ++ [0x5d], rest, by simp, .arr items, close⟩
  · cases close

theorem parseObject_sound (sound : Sound mem doubles value relation) {members : List (Utf16 × Value Num)}
    (here : At mem doubles t s) (read : parseObject (jsonNextToken mem doubles) value fuel s = some (.ok (members, s₁)))
    (close : jsonParseExpect (jsonNextToken mem doubles) s₁ 0x7d = some (.ok s')) :
    ∃ text rest, t = text ++ rest ∧ Composite engine (numberOf doubles) relation (0x7b :: text) (.obj members) ∧
      At mem doubles rest s' := by
  unfold jsonParseExpect at close
  split at close
  · next bracket =>
      unfold parseObject at read
      split at read
      · cases read
        obtain ⟨w, rest, blanks, rfl, behind⟩ := at_char here (c := 0x7d) bracket
        rw [behind] at close
        exact ⟨w ++ [0x7d], rest, by simp, .emptyObj blanks, close⟩
      · obtain ⟨text, rest, ms', rfl, items, rfl, behind⟩ :=
          parseMembers_sound sound here read bracket
        rw [behind] at close
        exact ⟨text ++ [0x7d], rest, by simp, .obj items, close⟩
  · cases close

theorem parseStep_sound (sound : Sound mem doubles value relation) (fuel : Nat) :
    Sound mem doubles (parseStep (jsonNextToken mem doubles) value fuel)
      (Composite engine (numberOf doubles) relation) := by
  rintro t ⟨token, p⟩ v s' here read follows
  obtain ⟨w, text, rest, blanks, rfl, behind, isToken⟩ := lex_sound mem doubles here
  cases token with
  | eof => cases read
  | char n =>
    obtain ⟨c, rfl, rfl⟩ := isToken
    simp only [parseStep] at read
    split at read
    · next brace =>
        obtain rfl : c = 0x7b := BitVec.eq_of_toNat_eq brace
        obtain ⟨s₁, next, read⟩ := Result.bind_eq_ok.mp read
        obtain ⟨⟨members, s₂⟩, inner, last⟩ := Result.bind_eq_ok.mp read
        obtain ⟨s₃, close, same⟩ := Result.bind_eq_ok.mp last
        cases same
        rw [behind] at next
        obtain ⟨text, rest, rfl, composite, here'⟩ := parseObject_sound sound next inner close
        exact ⟨w, _, rest, blanks, by simp, composite, here'⟩
    · split at read
      · next bracket =>
          obtain rfl : c = 0x5b := BitVec.eq_of_toNat_eq bracket
          obtain ⟨s₁, next, read⟩ := Result.bind_eq_ok.mp read
          obtain ⟨⟨elements, s₂⟩, inner, last⟩ := Result.bind_eq_ok.mp read
          obtain ⟨s₃, close, same⟩ := Result.bind_eq_ok.mp last
          cases same
          rw [behind] at next
          obtain ⟨text, rest, rfl, composite, here'⟩ := parseArray_sound sound next inner close
          exact ⟨w, _, rest, blanks, by simp, composite, here'⟩
      · cases read
  | string units => exact sound_scalar behind blanks (.str isToken) read
  | number x =>
    obtain ⟨s₁, next, same⟩ := Result.bind_eq_ok.mp read
    cases same
    rw [behind] at next
    obtain ⟨number, isValue⟩ := isToken
    rw [isValue (notNext_of_follows next follows)]
    exact ⟨w, text, rest, blanks, rfl, .num number, next⟩
  | ident name =>
    obtain ⟨-, rfl⟩ := isToken
    have spelled : ∀ {q : Utf16}, text.map BitVec.toNat = q.map BitVec.toNat → text = q :=
      fun same => (map_inj_right fun _ _ => BitVec.eq_of_toNat_eq).mp same
    simp only [parseStep] at read
    split at read
    · next word =>
        obtain rfl := spelled (q := [0x66, 0x61, 0x6c, 0x73, 0x65]) word
        exact sound_scalar behind blanks .false read
    · split at read
      · next word =>
          obtain rfl := spelled (q := [0x74, 0x72, 0x75, 0x65]) word
          exact sound_scalar behind blanks .true read
      · split at read
        · next word =>
            obtain rfl := spelled (q := [0x6e, 0x75, 0x6c, 0x6c]) word
            exact sound_scalar behind blanks .null read
        · cases read

variable (mem doubles) in
theorem jsonParseValue_sound (fuel stack : Nat) :
    Sound mem doubles (jsonParseValue mem doubles fuel stack) (Nested engine (numberOf doubles) stack) := by
  induction stack with
  | zero =>
    intro t s v s' here read
    unfold jsonParseValue parseStep at read
    repeat' split at read
    all_goals cases read
  | succ stack ih => exact parseStep_sound ih fuel

end Soundness

def Ends (rest : Utf16) : Prop :=
  ∀ c rest', rest = c :: rest' → isBlank c.toNat = true ∨ c = 0x2c ∨ c = 0x5d ∨ c = 0x7d

section Ends

variable {rest w : Utf16}

theorem Ends.notNext {f : Nat → Bool} (ends : Ends rest)
    (other : ∀ n ∈ [0x20, 0x09, 0x0a, 0x0d, 0x2c, 0x5d, 0x7d], f n = false) : NotNext f rest := by
  intro c rest' is
  rcases ends c rest' is with blank | rfl | rfl | rfl
  · rcases isBlank_iff.mp blank with rfl | rfl | rfl | rfl
    all_goals exact other _ (by decide)
  all_goals exact other _ (by decide)

theorem ends_blank (blanks : Ws w) (ends : Ends rest) : Ends (w ++ rest) := by
  intro c rest' is
  cases w with
  | nil => exact ends c rest' is
  | cons c' w =>
    obtain ⟨rfl, -⟩ := cons_eq_cons.mp is
    exact .inl (isBlank_iff.mpr (blanks c' (by simp)))

theorem ends_cons {c : BitVec 16} (is : c = 0x2c ∨ c = 0x5d ∨ c = 0x7d) (rest : Utf16) :
    Ends (c :: rest) := by
  rintro c' rest' same
  obtain ⟨rfl, -⟩ := cons_eq_cons.mp same
  exact .inr is

end Ends

section Lengths

variable {t units : Utf16}

theorem EngineEscape.length_le {e u : Utf16} (escape : EngineEscape e u) : u.length ≤ e.length := by
  cases escape with
  | braced letter nonempty digits range =>
    unfold unitsOf
    split <;> simp
  | _ => simp

theorem Chars.length_le (chars : Chars engine t units) : units.length ≤ t.length := by
  induction chars with
  | nil => simp
  | char printable notQuote notBackslash rest ih => simpa using ih
  | escape escape rest ih =>
    have short := EngineEscape.length_le escape
    simp only [length_append, length_cons]
    omega

theorem StringText.length_le (text : StringText engine t units) : units.length ≤ t.length := by
  obtain ⟨body, chars, rfl⟩ := text
  have short := chars.length_le
  simp only [length_cons, length_append]
  omega

theorem Separated.length_le {α : Type} {item : Utf16 → α → Prop} {vs : List α}
    (separated : Separated item t vs) : vs.length ≤ t.length + 1 := by
  induction separated with
  | one first => simp
  | cons first rest ih =>
    simp only [length_append, length_cons]
    omega

end Lengths

def Complete (size : Nat) (value : State Num → Result (Value Num × State Num))
    (relation : Utf16 → Value Num → Prop) : Prop :=
  ∀ w text rest v s', Ws w → relation text v → text.length ≤ size → Ends rest → At mem doubles rest s' →
    ∃ s, At mem doubles (w ++ (text ++ rest)) s ∧ value s = some (.ok (v, s'))

section Completeness

variable {size fuel : Nat} {value : State Num → Result (Value Num × State Num)}
  {relation : Utf16 → Value Num → Prop} {t rest : Utf16}
  {w text : Utf16} {vs : List (Value Num)} {ms : List (Utf16 × Value Num)}
  {s' : State Num}

variable {c : BitVec 16}

theorem at_blank_char (blanks : Ws w) (punctuation : Punctuation c)
    (rest : Utf16) : At mem doubles (w ++ c :: rest) (.char c.toNat, encode rest) := by
  rw [At, lex_blank mem doubles blanks]
  rcases punctuation with rfl | rfl | rfl | rfl | rfl | rfl
  all_goals
    rw [lex_cons mem doubles (by decide) (by decide)]
    rfl

variable {mem doubles}

theorem complete_element (complete : Complete mem doubles size value relation) (element : Element relation t v)
    (short : t.length ≤ size) (is : c = 0x2c ∨ c = 0x5d ∨ c = 0x7d) (rest : Utf16) :
    ∃ s, At mem doubles (t ++ c :: rest) s ∧ value s = some (.ok (v, (.char c.toNat, encode rest))) := by
  obtain ⟨w, body, w', blanks, isValue, blanks', rfl⟩ := element
  have punctuation : Punctuation c := by tauto
  have behind := at_blank_char mem doubles blanks' punctuation rest
  have inside : body.length ≤ size := by
    simp only [length_append] at short
    omega
  have read := complete w body (w' ++ c :: rest) v _ blanks isValue inside
    (ends_blank blanks' (ends_cons is rest)) behind
  simpa using read

theorem parseElements_complete (complete : Complete mem doubles size value relation)
    (items : Separated (Element relation) t vs) (short : t.length ≤ size) (enough : vs.length ≤ fuel)
    (acc : List (Value Num)) (rest : Utf16) : ∃ s, At mem doubles (t ++ 0x5d :: rest) s ∧
      parseElements (jsonNextToken mem doubles) value fuel acc s = some
      (.ok (acc ++ vs, (.char 0x5d, encode rest))) := by
  induction items generalizing fuel acc with
  | one first =>
    obtain ⟨s, here, read⟩ := complete_element complete first short (c := 0x5d) (by simp) rest
    obtain _ | fuel := fuel
    · simp at enough
    refine ⟨s, here, ?_⟩
    exact Result.bind_eq_ok.mpr ⟨_, read, if_neg Bool.false_ne_true⟩
  | @cons t₁ t₂ v vs first others ih =>
    simp only [length_append, length_cons] at short enough
    obtain _ | fuel := fuel
    · omega
    obtain ⟨s, here, read⟩ :=
      complete_element complete first (by omega) (c := 0x2c) (by simp) (t₂ ++ 0x5d :: rest)
    obtain ⟨s₁, next, others⟩ := ih (by omega) (show vs.length ≤ fuel by omega) (acc ++ [v])
    refine ⟨s, by simpa using here, ?_⟩
    refine Result.bind_eq_ok.mpr ⟨_, read, (if_pos rfl).trans ?_⟩
    exact Result.bind_eq_ok.mpr ⟨_, next, by simpa using others⟩

variable (mem doubles) in
theorem complete_name {name w' key : Utf16} (blanks : Ws w) (text : StringText engine name key)
    (limit : name.length ≤ 2 ^ 30 - 1) (blanks' : Ws w') (rest : Utf16) :
    ∃ p, At mem doubles (w ++ (name ++ (w' ++ 0x3a :: rest))) (.string key, p) ∧ ∀ s, At mem doubles rest s → ∃ s₁,
      jsonNextToken mem doubles p = some (.ok s₁) ∧
      jsonParseExpect (jsonNextToken mem doubles) s₁ 0x3a = some (.ok s) := by
  refine ⟨encode (w' ++ 0x3a :: rest), ?_, fun s here => ?_⟩
  · rw [At, lex_blank mem doubles blanks]
    exact lex_string mem doubles text (text.length_le.trans limit) _
  · refine ⟨_, at_blank_char mem doubles blanks' (c := 0x3a) (by simp [Punctuation]) rest, ?_⟩
    exact (if_pos rfl).trans here

theorem parseMembers_complete (complete : Complete mem doubles size value relation)
    (items : Separated (Member engine relation) t ms) (short : t.length ≤ size) (limit : size ≤ 2 ^ 30 - 1)
    (enough : ms.length ≤ fuel) (acc : List (Utf16 × Value Num)) (rest : Utf16) :
    ∃ s, At mem doubles (t ++ 0x7d :: rest) s ∧
      parseMembers (jsonNextToken mem doubles) value fuel acc s = some (.ok (ms.foldl
      (fun members member => define members member.1 member.2) acc, (.char 0x7d, encode rest))) := by
  induction items generalizing fuel acc with
  | one first =>
    obtain ⟨w, name, w', element, blanks, text, blanks', isElement, rfl⟩ := first
    simp only [length_append, length_cons] at short
    obtain _ | fuel := fuel
    · simp at enough
    obtain ⟨s, here, read⟩ :=
      complete_element complete isElement (by omega) (c := 0x7d) (by simp) rest
    obtain ⟨p, start, colon⟩ := complete_name mem doubles blanks text (by omega) blanks' (element ++ 0x7d :: rest)
    obtain ⟨s₁, next, expect⟩ := colon s here
    refine ⟨_, by simpa using start, ?_⟩
    refine Result.bind_eq_ok.mpr ⟨s₁, next, Result.bind_eq_ok.mpr ⟨s, expect, ?_⟩⟩
    exact Result.bind_eq_ok.mpr ⟨_, read, if_neg Bool.false_ne_true⟩
  | @cons t₁ t₂ member ms first others ih =>
    obtain ⟨w, name, w', element, blanks, text, blanks', isElement, rfl⟩ := first
    simp only [length_append, length_cons] at short enough
    obtain _ | fuel := fuel
    · omega
    obtain ⟨s, here, read⟩ :=
      complete_element complete isElement (by omega) (c := 0x2c) (by simp) (t₂ ++ 0x7d :: rest)
    obtain ⟨p, start, colon⟩ := complete_name mem doubles blanks text (by omega) blanks'
      (element ++ 0x2c :: (t₂ ++ 0x7d :: rest))
    obtain ⟨s₁, next, expect⟩ := colon s here
    obtain ⟨s₂, next', others⟩ := ih (by omega) (show ms.length ≤ fuel by omega) (define acc member.1 member.2)
    refine ⟨_, by simpa using start, ?_⟩
    refine Result.bind_eq_ok.mpr ⟨s₁, next, Result.bind_eq_ok.mpr ⟨s, expect, ?_⟩⟩
    refine Result.bind_eq_ok.mpr ⟨_, read, (if_pos rfl).trans ?_⟩
    exact Result.bind_eq_ok.mpr ⟨s₂, next', others⟩

theorem complete_scalar (blanks : Ws w)
    (read : lex mem doubles (text ++ rest) = some (.ok (token, encode rest))) (here : At mem doubles rest s')
    (returned : ∀ p,
      parseStep (jsonNextToken mem doubles) value fuel (token, p) = (jsonNextToken mem doubles p).bind fun s => some
      (.ok (v, s))) : ∃ s, At mem doubles (w ++ (text ++ rest)) s ∧
      parseStep (jsonNextToken mem doubles) value fuel s = some (.ok (v, s')) := by
  refine ⟨(token, encode rest), (lex_blank mem doubles blanks _).trans read, ?_⟩
  rw [returned]
  exact Result.bind_eq_ok.mpr ⟨s', here, rfl⟩

theorem parseArray_complete (complete : Complete mem doubles size value relation)
    (refuses : ∀ s r, s.1.isChar 0x5d = true → value s ≠ some (.ok r)) (items : Separated (Element relation) t vs)
    (short : t.length ≤ size) (enough : t.length + 1 ≤ fuel) (rest : Utf16) :
    ∃ s, At mem doubles (t ++ 0x5d :: rest) s ∧
      parseArray (jsonNextToken mem doubles) value fuel s = some (.ok (vs, (.char 0x5d, encode rest))) := by
  obtain ⟨s, here, read⟩ :=
    parseElements_complete complete items short (items.length_le.trans enough) [] rest
  refine ⟨s, here, (if_neg fun close => ?_).trans read⟩
  obtain _ | fuel := fuel
  · omega
  obtain ⟨r, first, -⟩ := Result.bind_eq_ok.mp (by simpa only [parseElements] using read)
  exact refuses s r close first

theorem parseObject_complete (complete : Complete mem doubles size value relation)
    (items : Separated (Member engine relation) t ms) (short : t.length ≤ size) (limit : size ≤ 2 ^ 30 - 1)
    (enough : t.length + 1 ≤ fuel) (rest : Utf16) : ∃ s, At mem doubles (t ++ 0x7d :: rest) s ∧
      parseObject (jsonNextToken mem doubles) value fuel s = some (.ok (ms.foldl
      (fun members member => define members member.1 member.2) [], (.char 0x7d, encode rest))) := by
  obtain ⟨s, here, read⟩ :=
    parseMembers_complete complete items short limit (items.length_le.trans enough) [] rest
  refine ⟨s, here, (if_neg fun close => ?_).trans read⟩
  obtain _ | fuel := fuel
  · omega
  obtain ⟨token, p⟩ := s
  cases token with
  | char c => simp [parseMembers] at read
  | _ => simp [Token.isChar] at close

theorem complete_array (blanks : Ws w) (first : At mem doubles (text ++ 0x5d :: rest) s)
    (read : parseArray (jsonNextToken mem doubles) value fuel s = some (.ok (vs, (.char 0x5d, encode rest))))
    (here : At mem doubles rest s') : ∃ s, At mem doubles (w ++ (0x5b :: (text ++ [0x5d]) ++ rest)) s ∧
      parseStep (jsonNextToken mem doubles) value fuel s = some (.ok (.arr vs, s')) := by
  have start := at_blank_char mem doubles blanks (c := 0x5b) (by simp [Punctuation]) (text ++ 0x5d :: rest)
  refine ⟨_, by simpa using start, ?_⟩
  refine Result.bind_eq_ok.mpr ⟨s, first, Result.bind_eq_ok.mpr ⟨_, read, ?_⟩⟩
  exact Result.bind_eq_ok.mpr ⟨s', (if_pos rfl).trans here, rfl⟩

theorem complete_object (blanks : Ws w) (first : At mem doubles (text ++ 0x7d :: rest) s)
    (read : parseObject (jsonNextToken mem doubles) value fuel s = some (.ok (ms, (.char 0x7d, encode rest))))
    (here : At mem doubles rest s') : ∃ s, At mem doubles (w ++ (0x7b :: (text ++ [0x7d]) ++ rest)) s ∧
      parseStep (jsonNextToken mem doubles) value fuel s = some (.ok (.obj ms, s')) := by
  have start := at_blank_char mem doubles blanks (c := 0x7b) (by simp [Punctuation]) (text ++ 0x7d :: rest)
  refine ⟨_, by simpa using start, ?_⟩
  refine Result.bind_eq_ok.mpr ⟨s, first, Result.bind_eq_ok.mpr ⟨_, read, ?_⟩⟩
  exact Result.bind_eq_ok.mpr ⟨s', (if_pos rfl).trans here, rfl⟩

theorem parseStep_complete (complete : Complete mem doubles size value relation)
    (refuses : ∀ s r, s.1.isChar 0x5d = true → value s ≠ some (.ok r)) (enough : size ≤ fuel)
    (limit : size ≤ 2 ^ 30 - 1) : Complete mem doubles size (parseStep (jsonNextToken mem doubles) value fuel)
      (Composite engine (numberOf doubles) relation) := by
  intro w text rest v s' blanks composite short ends here
  have word : ∀ (c : BitVec 16) (t : Utf16), isIdentFirst c.toNat = true →
      (t.all fun u => isIdContinueByte u.toNat) = true →
      lex mem doubles (c :: t ++ rest) = some (.ok (.ident ((c :: t).map BitVec.toNat), encode rest)) :=
    fun c t first all => lex_ident mem doubles first (all_eq_true.mp all) (ends.notNext (by decide))
  cases composite with
  | false =>
    have read := word 0x66 [0x61, 0x6c, 0x73, 0x65] (by decide) (by decide)
    exact complete_scalar blanks read here fun p => by simp [parseStep]
  | true =>
    have read := word 0x74 [0x72, 0x75, 0x65] (by decide) (by decide)
    exact complete_scalar blanks read here fun p => by simp [parseStep]
  | null =>
    have read := word 0x6e [0x75, 0x6c, 0x6c] (by decide) (by decide)
    exact complete_scalar blanks read here fun p => by simp [parseStep]
  | num number =>
    exact complete_scalar blanks (lex_number mem doubles number ⟨ends.notNext (by decide),
      ends.notNext (f := fun n => n == 0x2e) (by decide), ends.notNext (by decide)⟩) here fun p => rfl
  | str string =>
    have few := string.length_le.trans (short.trans limit)
    exact complete_scalar blanks (lex_string mem doubles string few rest) here fun p => rfl
  | emptyArr blanks' =>
    have bracket := at_blank_char mem doubles blanks' (c := 0x5d) (by simp [Punctuation]) rest
    exact complete_array blanks bracket (if_pos rfl) here
  | @arr t vs items =>
    simp only [length_cons, length_append, length_nil] at short
    obtain ⟨s, first, read⟩ :=
      parseArray_complete complete refuses items (by omega) (show t.length + 1 ≤ fuel by omega) rest
    exact complete_array blanks first read here
  | emptyObj blanks' =>
    have bracket := at_blank_char mem doubles blanks' (c := 0x7d) (by simp [Punctuation]) rest
    exact complete_object blanks bracket (if_pos rfl) here
  | @obj t ms items =>
    simp only [length_cons, length_append, length_nil] at short
    obtain ⟨s, first, read⟩ :=
      parseObject_complete complete items (by omega) limit (show t.length + 1 ≤ fuel by omega) rest
    exact complete_object blanks first read here

theorem parseStep_refuses {next : List Nat → Result (State Num)} (s : State Num) (r : Value Num × State Num)
    (close : s.1.isChar 0x5d = true) : parseStep next value fuel s ≠ some (.ok r) := by
  obtain ⟨token, p⟩ := s
  cases token with
  | char c =>
    obtain rfl : c = 0x5d := by simpa [Token.isChar] using close
    simp [parseStep]
  | _ => simp [Token.isChar] at close

variable (mem doubles) in
theorem jsonParseValue_complete (stack : Nat) (enough : size ≤ fuel) (limit : size ≤ 2 ^ 30 - 1) :
    Complete mem doubles size (jsonParseValue mem doubles fuel stack) (Nested engine (numberOf doubles) stack) := by
  induction stack with
  | zero =>
    intro w text rest v s' blanks nested
    exact absurd nested id
  | succ stack ih =>
    refine parseStep_complete ih (fun s r close => ?_) enough limit
    cases stack <;> exact parseStep_refuses s r close

end Completeness

end Json
