import Partikle.Json.Tree

/-!
The text of a tree is a JSON text of ECMA-404 for that tree.
-/

namespace Json

open Text Strings List

variable {Num : Type}

variable {n : Nat} {w : Utf16}

section Numbers

def ofInt (doubles : Doubles Num) (i : BitVec 32) : Num :=
  if i.toInt < 0 then doubles.neg (doubles.ofUint64 i.toInt.natAbs) else doubles.ofUint64 i.toInt.natAbs

theorem digit_toNat (small : n < 10) : (BitVec.ofNat 16 (0x30 + n)).toNat = 0x30 + n :=
  Nat.mod_eq_of_lt (by omega)

theorem isDigit_digit (small : n < 10) : isDigit (BitVec.ofNat 16 (0x30 + n)).toNat = true := by
  simp [isDigit]
  omega

theorem allDigits_decimal (n : Nat) : AllDigits (decimal n) := by
  fun_induction decimal n with
  | case1 n small => simpa [AllDigits] using isDigit_digit small
  | case2 n large ih =>
    intro c there
    rcases mem_append.mp there with inside | last
    · exact ih c inside
    · rw [mem_singleton.mp last]
      exact isDigit_digit (Nat.mod_lt n (by decide))

theorem decimal_head (positive : 0 < n) : ∃ c rest, decimal n = c :: rest ∧ c ≠ 0x30 := by
  fun_induction decimal n with
  | case1 n small =>
    refine ⟨_, [], rfl, fun zero => ?_⟩
    have same := congrArg BitVec.toNat zero
    simp at same
    omega
  | case2 n large ih =>
    obtain ⟨c, rest, is, nonzero⟩ := ih (by omega)
    exact ⟨c, rest ++ [_], by rw [is]; rfl, nonzero⟩

theorem intPart_decimal (n : Nat) : IntPart (decimal n) := by
  rcases Nat.eq_zero_or_pos n with rfl | positive
  · exact .inl (by rw [decimal]; rfl)
  · obtain ⟨c, rest, is, nonzero⟩ := decimal_head positive
    have digits := allDigits_decimal n
    rw [is] at digits ⊢
    exact .inr ⟨c, rest, rfl, nonzero, digits⟩

theorem ecmaNumber_intText (i : BitVec 32) : EcmaNumber (intText i) := by
  unfold intText
  split
  · exact ⟨[0x2d], decimal i.toInt.natAbs, [], [], .inr rfl, intPart_decimal _, .inl rfl, .inl rfl, by simp⟩
  · exact ⟨[], decimal i.toInt.natAbs, [], [], .inl rfl, intPart_decimal _, .inl rfl, .inl rfl, by simp⟩

theorem accumulate_append {m k c : Nat} {p : List Nat} (digits : ∀ b ∈ p, isDigit b = true)
    (value : accumulate m p = some k) (digit : isDigit c = true) (small : k ≤ (2 ^ 64 - 1 - 9) / 10) :
    accumulate m (p ++ [c]) = some (k * 10 + (c - 0x30)) := by
  induction p generalizing m with
  | nil =>
    cases value
    simp only [nil_append, accumulate, digit, not_true, if_false, if_pos small]
  | cons b p ih =>
    simp only [cons_append, accumulate, digits b (by simp), not_true, if_false] at value ⊢
    split at value
    · next low =>
        rw [if_pos low]
        exact ih (fun b there => digits b (by simp [there])) value
    · cases value

theorem accumulate_decimal (small : n < 2 ^ 32) : accumulate 0 ((decimal n).map BitVec.toNat) = some n := by
  fun_induction decimal n with
  | case1 n low =>
    rw [map_singleton, digit_toNat low]
    simp [accumulate, isDigit]
    omega
  | case2 n large ih =>
    have digits : ∀ b ∈ (decimal (n / 10)).map BitVec.toNat, isDigit b = true := by
      simpa [AllDigits] using allDigits_decimal (n / 10)
    have low : n % 10 < 10 := Nat.mod_lt n (by decide)
    have digit := isDigit_digit low
    rw [digit_toNat low] at digit
    rw [map_append, map_singleton, digit_toNat low,
      accumulate_append digits (ih (by omega)) digit (by omega)]
    simp only [Option.some.injEq]
    omega

theorem dropWhile_decimal (small : n < 2 ^ 32) :
    accumulate 0 (((decimal n).map BitVec.toNat).dropWhile (· = 0x30)) = some n := by
  rcases Nat.eq_zero_or_pos n with rfl | positive
  · rw [decimal]
    rfl
  · have value := accumulate_decimal small
    obtain ⟨c, rest, is, nonzero⟩ := decimal_head positive
    have first : ¬c.toNat = 0x30 := fun zero => nonzero ((toNat_eq (by decide)).mp zero)
    rw [is] at value ⊢
    rwa [map_cons, dropWhile_cons, if_neg (by simpa using first)]

theorem numberOf_intText (doubles : Doubles Num) (i : BitVec 32) : numberOf doubles (intText i) = ofInt doubles i := by
  have range := i.toInt_lt
  have range' := i.le_toInt
  have small : i.toInt.natAbs < 2 ^ 32 := by omega
  have value := dropWhile_decimal small
  have plain : ((decimal i.toInt.natAbs).any fun c => c.toNat == 0x2e || isExponentLetter c.toNat) = false := by
    rw [any_eq_false]
    intro c there
    have digit := allDigits_decimal _ c there
    simp [isDigit] at digit
    simp [isExponentLetter]
    omega
  unfold numberOf intText ofInt
  split
  · simp only [any_cons, plain, map_cons]
    unfold jsStrtod
    simp [isExponentLetter, value]
  · obtain ⟨nonempty, digits⟩ := (intPart_decimal i.toInt.natAbs).allDigits
    obtain ⟨c, rest, is⟩ := exists_cons_of_ne_nil nonempty
    have first : ¬((decimal i.toInt.natAbs).map BitVec.toNat).headD 0 = 0x2d := by
      rw [is]
      intro minus
      have digit := digits c (by simp [is])
      rw [show c.toNat = 0x2d from minus] at digit
      cases digit
    simp only [plain, jsStrtod, first]
    simp [value]

end Numbers

section Blanks

theorem ws_newline (gap indent : Nat) : Ws (newline gap indent) := by
  unfold newline
  split
  · simp [Ws]
  · intro c there
    rcases mem_cons.mp there with rfl | space
    · simp
    · simp [eq_of_mem_replicate space]

theorem ws_nil : Ws [] := by simp [Ws]

end Blanks

section Objects

variable {α : Type}

theorem define_new {members : List (Utf16 × α)} {key : Utf16} {v : α}
    (new : key ∉ members.map Prod.fst) : define members key v = members ++ [(key, v)] := by
  induction members with
  | nil => rfl
  | cons member rest ih =>
    simp only [map_cons, mem_cons, not_or] at new
    rw [define, if_neg (Ne.symm new.1), ih new.2, cons_append]

theorem foldl_define {members acc : List (Utf16 × α)} (nodup : ((acc ++ members).map Prod.fst).Nodup) :
    members.foldl (fun members member => define members member.1 member.2) acc = acc ++ members := by
  induction members generalizing acc with
  | nil => simp
  | cons member rest ih =>
    have new : member.1 ∉ acc.map Prod.fst := by
      rw [map_append, map_cons, nodup_append] at nodup
      intro there
      exact nodup.2.2 member.1 there member.1 (by simp) rfl
    rw [foldl_cons, define_new new, ih (by simpa using nodup)]
    simp

end Objects

section Grammar

variable (doubles : Doubles Num)

theorem separated_commas {β γ : Type} {item : Utf16 → γ → Prop} (text : β → Utf16) (value : β → γ)
    (w : Utf16) {first : β} {others : List β} (inner : ∀ m ∈ first :: others, item (text m) (value m))
    (last : ∀ m ∈ first :: others, item (text m ++ w) (value m)) :
    Separated item (commas ((first :: others).map text) ++ w) ((first :: others).map value) := by
  induction others generalizing first with
  | nil => exact .one (last first (by simp))
  | cons second others ih =>
    have rest : Separated item (commas ((second :: others).map text) ++ w) ((second :: others).map value) :=
      ih (fun m there => inner m (.tail _ there)) fun m there => last m (.tail _ there)
    have here := inner first (by simp)
    simpa [commas] using Separated.cons here rest

variable {value : Utf16 → Value Num → Prop} {gap indent : Nat}

theorem element_text {t : Nat → Utf16} {v : Value Num} (is : value (t (indent + gap)) v)
    (blanks : Ws w) : Element value (elementText gap indent t ++ w) v :=
  ⟨newline gap (indent + gap), t (indent + gap), w, ws_newline _ _, is, blanks, by simp [elementText]⟩

theorem member_text {m : Utf16 × (Nat → Utf16)} {v : Value Num}
    (is : value (m.2 (indent + gap)) v) (blanks : Ws w) :
    Member ecma404 value (memberText gap indent m ++ w) (m.1, v) := by
  refine ⟨newline gap (indent + gap), quote m.1, [], blank gap ++ (m.2 (indent + gap) ++ w), ws_newline _ _,
    quote_text m.1, ws_nil, ⟨blank gap, m.2 (indent + gap), w, ?_, is, blanks, rfl⟩, ?_⟩
  · unfold blank
    split <;> simp [Ws]
  · simp [memberText]

theorem text_nested {v : Value (BitVec 32)} {d : Nat} (deep : v.depth ≤ d) (distinct : v.Distinct) (gap indent : Nat) :
    Nested ecma404 (numberOf doubles) d (v.text gap indent) (v.map (ofInt doubles)) := by
  induction d generalizing v indent with
  | zero => exact absurd deep (Nat.not_le.mpr (Value.depth_pos _))
  | succ d ih =>
    cases v with
    | null => exact .null
    | bool b =>
      cases b with
      | false => exact .false
      | true => exact .true
    | num i =>
      have number : Composite ecma404 (numberOf doubles) (Nested ecma404 (numberOf doubles) d) (intText i)
          (.num (numberOf doubles (intText i))) := .num (ecmaNumber_intText i)
      rwa [numberOf_intText] at number
    | str units => exact .str (quote_text units)
    | arr vs =>
      rw [text_arr, Value.map_arr]
      have inner := fun v there => ih (Value.depth_arr_le.mp deep v there) (Value.distinct_arr.mp distinct v there)
      cases vs with
      | nil => exact .emptyArr ws_nil
      | cons v vs =>
        refine .arr (separated_commas _ _ _ (fun v there => ?_) fun v there => ?_)
        · simpa using element_text (inner v there _) ws_nil
        · exact element_text (inner v there _) (ws_newline gap indent)
    | obj ms =>
      obtain ⟨nodup, all⟩ := Value.distinct_obj.mp distinct
      rw [text_obj, Value.map_obj]
      have inner := fun m there => ih (Value.depth_obj_le.mp deep m there) (all m there)
      have same : object (ms.map fun m => (m.1, m.2.map (ofInt doubles))) =
          .obj (ms.map fun m => (m.1, m.2.map (ofInt doubles))) :=
        congrArg Value.obj (foldl_define (by simpa [Function.comp_def] using nodup))
      rw [← same]
      cases ms with
      | nil => exact .emptyObj ws_nil
      | cons m ms =>
        refine .obj (separated_commas _ _ _ (fun m there => ?_) fun m there => ?_)
        · simpa using member_text (inner m there _) ws_nil
        · exact member_text (inner m there _) (ws_newline gap indent)

end Grammar

end Json
