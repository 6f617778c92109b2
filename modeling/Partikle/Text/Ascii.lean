import Partikle.Text.Append
import Mathlib.Data.List.TakeWhile

/-!
The ASCII characters of the strings that `JS_NewStringLen` makes of bytes that need not be UTF-8. Behind continuation
bytes that belong to no sequence one more byte is skipped, whatever it is.
-/

namespace Text

open Strings StringBuffer Wrap List Option

section Buffers

variable {mem : Memory} {s s' s'' : StringBuffer} {units more : Utf16}

def Grows (s s' : StringBuffer) (units : Utf16) : Prop :=
  s'.errorStatus = none → s.errorStatus = none ∧ s'.units = s.units ++ units

theorem grows_refl (s : StringBuffer) : Grows s s [] := fun good => ⟨good, by simp⟩

theorem Grows.trans (first : Grows s s' units) (second : Grows s' s'' more) : Grows s s'' (units ++ more) := by
  intro good
  obtain ⟨good', later⟩ := second good
  obtain ⟨start, early⟩ := first good'
  exact ⟨start, by rw [later, early, append_assoc]⟩

theorem store_grows (stored : s.store units = some s') : Grows s s' units := by
  simp only [store, ite_none_right_eq_some, some.injEq] at stored
  obtain ⟨-, rfl⟩ := stored
  exact fun good => ⟨good, rfl⟩

theorem stored_grows (room : Grows s s' [])
    (stored : (if s'.errorStatus.isSome then some s' else s'.store units) = some s'') : Grows s s'' units := by
  split at stored
  · rename_i failed
    cases stored
    intro good
    simp [good] at failed
  · exact room.trans (store_grows stored)

theorem room_grows {c : Prop} [Decidable c] {newLen : Int} {unit : Nat} {f : StringBuffer → Option StringBuffer}
    (run : (if c then (s.realloc mem newLen unit).bind f else (some s).bind f) = some s') :
    ∃ s1, Grows s s1 [] ∧ f s1 = some s' := by
  split at run
  · obtain ⟨s1, grown, rest⟩ := bind_eq_some_iff.mp run
    refine ⟨s1, fun good => ?_, rest⟩
    obtain ⟨start, same, -⟩ := realloc_inv mem grown good
    exact ⟨start, by simpa using same⟩
  · exact ⟨s, grows_refl s, run⟩

theorem putc16_grows {c : Nat} (put : s.putc16 mem c = some s') : Grows s s' [.ofNat 16 c] := by
  unfold putc16 at put
  split at put
  · exact store_grows put
  · simp only [putcSlow] at put
    obtain ⟨s1, room, put⟩ := room_grows put
    split at put
    · rename_i failed
      cases put
      intro good
      simp [good] at failed
    · split at put
      · exact room.trans (store_grows put)
      · split at put
        · exact room.trans (store_grows put)
        · obtain ⟨s2, widened, stored⟩ := bind_eq_some_iff.mp put
          refine room.trans (stored_grows (fun good => ?_) stored)
          obtain ⟨start, same, -⟩ := widen_inv mem widened good
          exact ⟨start, by simpa using same⟩

end Buffers

section Decoding

def asciiUnits (units : Utf16) : List Nat := (units.map BitVec.toNat).filter (· < 0x80)

def asciiBytes (p : List Nat) : List Nat := p.filter (· < 0x80)

/-- Where a character is to start, there are no continuation bytes with an ASCII character behind them. -/
def keepsAscii : List Nat → Bool
  | [] => true
  | b :: p =>
    if b < 128 then keepsAscii p
    else ((b :: p).dropWhile isTail).headD 0xff ≥ 128 && keepsAscii (readChar (b :: p)).2
termination_by p => p.length
decreasing_by
  all_goals
    have := readChar_length b p
    simp only [length_cons]
    omega

def decoded : List Nat → Utf16
  | [] => []
  | b :: p =>
    if b < 128 then .ofNat 16 b :: decoded p
    else unitsOf (readChar (b :: p)).1 ++ decoded (readChar (b :: p)).2
termination_by p => p.length
decreasing_by
  all_goals
    have := readChar_length b p
    simp only [length_cons]
    omega

theorem decode_grows {mem : Memory} {s s' : StringBuffer} {p : List Nat} (read : decode mem s p = some s') :
    Grows s s' (decoded p) := by
  induction p using decoded.induct generalizing s with
  | case1 =>
    rw [decode] at read
    cases read
    rw [decoded]
    exact grows_refl _
  | case2 b p low ih =>
    rw [decode, if_pos low] at read
    obtain ⟨s1, put, read⟩ := bind_eq_some_iff.mp read
    rw [decoded, if_pos low]
    obtain ⟨s2, room, stored⟩ := room_grows put
    exact (stored_grows room stored).trans (ih read)
  | case3 b p high ih =>
    simp only [decode, if_neg high] at read
    rw [decoded, if_neg high, unitsOf]
    split at read
    · rename_i beyond
      obtain ⟨s1, first, read⟩ := bind_eq_some_iff.mp read
      obtain ⟨s2, second, read⟩ := bind_eq_some_iff.mp read
      rw [if_pos beyond]
      exact ((putc16_grows first).trans (putc16_grows second)).trans (ih read)
    · rename_i plain
      obtain ⟨s1, put, read⟩ := bind_eq_some_iff.mp read
      rw [if_neg plain]
      exact (putc16_grows put).trans (ih read)

variable {b c : Nat} {p next : List Nat}

@[simp] theorem asciiUnits_append (units more : Utf16) :
    asciiUnits (units ++ more) = asciiUnits units ++ asciiUnits more := by
  simp [asciiUnits]

theorem asciiUnits_map (low : ∀ b ∈ p, b < 128) : asciiUnits (p.map (.ofNat 16)) = p := by
  induction p with
  | nil => rfl
  | cons b p ih =>
    have small := low b (by simp)
    rw [map_cons, ← singleton_append, asciiUnits_append, ih fun b mem => low b (by simp [mem])]
    simp [asciiUnits, Nat.mod_eq_of_lt (show b < 65536 by omega), small]

theorem asciiUnits_unitsOf (high : 128 ≤ c) (range : c ≤ 0x10FFFF) : asciiUnits (unitsOf c) = [] := by
  have hi := getHiSurrogate_eq c
  have lo := getLoSurrogate_eq c
  unfold unitsOf
  split <;> simp [asciiUnits] <;> omega

theorem asciiBytes_cons_of_le (high : 128 ≤ b) : asciiBytes (b :: p) = asciiBytes p :=
  filter_cons_of_neg (by simpa using high)

theorem asciiBytes_cons_of_lt (low : b < 128) : asciiBytes (b :: p) = b :: asciiBytes p :=
  filter_cons_of_pos (by simpa using low)

theorem decoded_cons_of_lt (low : b < 128) : asciiUnits (decoded (b :: p)) = b :: asciiUnits (decoded p) := by
  have one : asciiUnits [.ofNat 16 b] = [b] := asciiUnits_map (p := [b]) (by simpa using low)
  rw [decoded, if_pos low, ← singleton_append, asciiUnits_append, one, singleton_append]

theorem asciiBytes_dropWhile (p : List Nat) : asciiBytes (p.dropWhile isTail) = asciiBytes p := by
  induction p with
  | nil => rfl
  | cons b p ih =>
    by_cases tail : isTail b
    · have high : 128 ≤ b := by
        simp only [isTail, Bool.and_eq_true, decide_eq_true_eq] at tail
        exact tail.1
      rw [dropWhile_cons_of_pos tail, ih, asciiBytes_cons_of_le high]
    · rw [dropWhile_cons_of_neg tail]

theorem asciiBytes_readTail {l first : Nat} (read : readTail l first p = some (c, next)) :
    asciiBytes p = asciiBytes next := by
  induction l generalizing first p with
  | zero =>
    cases read
    rfl
  | succ l ih =>
    simp only [readTail] at read
    split at read
    · cases read
    · rename_i tail
      cases p with
      | nil => simp at tail
      | cons b p =>
        rw [asciiBytes_cons_of_le (by simp only [headD_cons] at tail; omega)]
        exact ih read

theorem readSequence_ascii {maxLen : Int} (high : 128 ≤ b) (read : readSequence b p maxLen = some (c, next)) :
    128 ≤ c ∧ isTail b = false ∧ asciiBytes p = asciiBytes next := by
  unfold readSequence at read
  rw [if_neg (by omega)] at read
  repeat' split at read
  all_goals cases read
  rename_i l lead _ _ enough tail
  have start : isTail b = false := by
    unfold followers at lead
    simp only [isTail, Bool.and_eq_false_iff, decide_eq_false_iff_not]
    grind
  have few : l - 1 < 5 := by
    unfold followers at lead
    grind
  refine ⟨?_, start, asciiBytes_readTail tail⟩
  have least : ∀ i < 5, 128 ≤ utf8MinCode.getD i 0 := by decide
  exact (least _ few).trans (not_lt.mp enough)

theorem readChar_ascii (high : 128 ≤ b) : 128 ≤ (readChar (b :: p)).1 ∧ (readChar (b :: p)).1 ≤ 0x10FFFF ∧
      asciiBytes (b :: p) = asciiBytes (((b :: p).dropWhile isTail).take 1) ++ asciiBytes (readChar (b :: p)).2 := by
  have skipped : asciiBytes (b :: p) =
      asciiBytes (((b :: p).dropWhile isTail).take 1) ++ asciiBytes (skipInvalid (b :: p)) := by
    rw [skipInvalid, asciiBytes_dropWhile, asciiBytes, asciiBytes, asciiBytes, ← filter_append,
      take_append_drop]
    exact (asciiBytes_dropWhile _).symm
  unfold readChar
  split
  · rename_i c next read
    split
    · rename_i range
      obtain ⟨least, start, same⟩ := readSequence_ascii high read
      refine ⟨least, range, ?_⟩
      rw [dropWhile_cons_of_neg (by simp [start]), asciiBytes_cons_of_le high, take_succ_cons,
        asciiBytes_cons_of_le high]
      exact same
    · exact ⟨by simp, by simp, skipped⟩
  · exact ⟨by simp, by simp, skipped⟩

theorem asciiBytes_take (p : List Nat) : asciiBytes (p.take 1) = if p.headD 0xff < 128 then [p.headD 0xff] else [] := by
  cases p with
  | nil => rfl
  | cons b p => simp [asciiBytes, filter_cons]

theorem decoded_length (p : List Nat) : (asciiUnits (decoded p)).length ≤ (asciiBytes p).length := by
  induction p using decoded.induct with
  | case1 => simp [decoded, asciiUnits]
  | case2 b p low ih =>
    rw [decoded_cons_of_lt low, asciiBytes_cons_of_lt low]
    exact Nat.succ_le_succ ih
  | case3 b p high ih =>
    obtain ⟨least, range, all⟩ := readChar_ascii (p := p) (not_lt.mp high)
    rw [decoded, if_neg high, asciiUnits_append, asciiUnits_unitsOf least range, all, nil_append,
      length_append]
    exact ih.trans (Nat.le_add_left _ _)

theorem decoded_ascii (p : List Nat) : asciiUnits (decoded p) = asciiBytes p ↔ keepsAscii p = true := by
  induction p using decoded.induct with
  | case1 => simp [decoded, keepsAscii, asciiUnits, asciiBytes]
  | case2 b p low ih =>
    rw [decoded_cons_of_lt low, asciiBytes_cons_of_lt low, keepsAscii, if_pos low, ← ih, cons.injEq]
    exact and_iff_right rfl
  | case3 b p high ih =>
    obtain ⟨least, range, all⟩ := readChar_ascii (p := p) (not_lt.mp high)
    rw [decoded, if_neg high, asciiUnits_append, asciiUnits_unitsOf least range, all, keepsAscii, if_neg high,
      asciiBytes_take, Bool.and_eq_true, ← ih, decide_eq_true_eq]
    split
    · have short := decoded_length (readChar (b :: p)).2
      constructor
      · intro same
        have longer := congrArg length same
        simp only [nil_append, length_append, length_singleton] at longer
        omega
      · rintro ⟨kept, -⟩
        omega
    · rename_i kept
      simp only [nil_append, iff_and_self]
      exact fun _ => not_lt.mp kept

end Decoding

section Strings

variable {mem : Memory} {buf : List Nat} {str : JsString}

theorem keepsAscii_append {low rest : List Nat} (ascii : ∀ b ∈ low, b < 128) :
    keepsAscii (low ++ rest) = keepsAscii rest := by
  induction low with
  | nil => rfl
  | cons b low ih =>
    rw [cons_append, keepsAscii, if_pos (ascii b (by simp))]
    exact ih fun b mem => ascii b (by simp [mem])

theorem newString8_units (made : jsNewString8 mem buf = .ok str) (short : (buf.length : Int) ≤ jsStringLenMax) :
    str.units = buf.map (.ofNat 16) := by
  have length : int32 buf.length = buf.length := by
    unfold jsStringLenMax at short
    unfold int32
    rw [Int.bmod_eq_of_le] <;> omega
  unfold jsNewString8 at made
  split at made
  · cases made
    have none : buf = [] := eq_nil_of_length_eq_zero (by omega)
    rw [none]
    rfl
  · split at made
    · cases made
    · cases made
      rfl

theorem endString_units {s : StringBuffer} (ended : s.endString = .ok str) :
    s.errorStatus = none ∧ str.units = s.units := by
  unfold endString at ended
  split at ended
  · cases ended
  · rename_i good
    refine ⟨good, ?_⟩
    split at ended
    · rename_i empty
      cases ended
      exact (eq_nil_of_length_eq_zero empty).symm
    · cases ended
      rfl

/-- A string that is made has the ASCII characters of the bytes in their order, unless there is one behind continuation
bytes that belong to no sequence. -/
theorem newStringLen_keeps_ascii (made : newStringLen mem buf = some (.ok str)) :
    asciiUnits str.units = asciiBytes buf ↔ keepsAscii buf = true := by
  have low : ∀ b ∈ buf.takeWhile (· < 128), b < 128 := fun b mem => by simpa using mem_takeWhile_imp mem
  have split' : buf.takeWhile (· < 128) ++ buf.dropWhile (· < 128) = buf := takeWhile_append_dropWhile
  have bytes : asciiBytes buf = buf.takeWhile (· < 128) ++ asciiBytes (buf.dropWhile (· < 128)) := by
    conv_lhs => rw [← split', asciiBytes, filter_append]
    rw [filter_eq_self.mpr fun b mem => by simpa using low b mem, asciiBytes]
  have keeps : keepsAscii buf = keepsAscii (buf.dropWhile (· < 128)) := by
    conv_lhs => rw [← split', keepsAscii_append low]
  have units : str.units = (buf.takeWhile (· < 128)).map (.ofNat 16) ++ decoded (buf.dropWhile (· < 128)) := by
    unfold newStringLen at made
    simp only at made
    split at made
    · cases made
    · rename_i short
      split at made
      · rename_i all
        rw [all, append_nil] at split'
        rw [split'] at short
        rw [all, decoded, append_nil, split']
        exact newString8_units (some.inj made) (Int.not_lt.mp short)
      · obtain ⟨s1, written, made⟩ := bind_eq_some_iff.mp made
        obtain ⟨s2, read, made⟩ := bind_eq_some_iff.mp made
        obtain ⟨good, same⟩ := endString_units (some.inj made)
        have empty : (init mem (int32 buf.length)).units = [] := by
          unfold init init2
          split <;> rfl
        simp only [write8] at written
        obtain ⟨s0, room, stored⟩ := room_grows written
        obtain ⟨-, all⟩ := ((stored_grows room stored).trans (decode_grows read)) good
        rw [same, all, empty, nil_append]
  rw [units, bytes, keeps, asciiUnits_append, asciiUnits_map low, append_cancel_left_eq, decoded_ascii]

theorem newStringLen_keeps_ascii_letters :
    ∃ str, newStringLen .all [0x61, 0xc3, 0xa9, 0x62] = some (.ok str) ∧ asciiUnits str.units = [0x61, 0x62] := by
  have made : newStringLen .all [0x61, 0xc3, 0xa9, 0x62] = some (.ok ⟨false, [0x61, 0xe9, 0x62]⟩) := by
    decide +kernel
  exact ⟨_, made, (newStringLen_keeps_ascii made).mpr (by decide +kernel)⟩

/-- A continuation byte of its own takes the letter behind it along. -/
theorem newStringLen_loses_letter :
    ∃ str, newStringLen .all [0xa9, 0x61] = some (.ok str) ∧ asciiUnits str.units ≠ asciiBytes [0xa9, 0x61] :=
  ⟨⟨true, [0xfffd]⟩, by decide +kernel, by decide⟩

end Strings

end Text
