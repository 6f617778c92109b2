import Partikle.Json.Print
import Partikle.Json.Stringify

/-!
The strings that `js_json_to_str` makes beside the text: integers and indentation.
-/

namespace Json

open Text Strings StringBuffer List Option

variable {k gap len : Nat}

theorem ofBuffer_bind (r : Option StringBuffer) (f : StringBuffer → Option StringBuffer) :
    ofBuffer (r.bind f) = (ofBuffer r).bind fun b => ofBuffer (f b) := by
  cases r <;> rfl

structure Printable (str : JsString) : Prop where
  narrow : str.isWideChar = false → isWide str.units = false
  limit : str.units.length ≤ 2 ^ 30 + 1

section Integers

theorem length_decimal {n d : Nat} (small : n < 10 ^ (d + 1)) : (decimal n).length ≤ d + 1 := by
  induction d generalizing n with
  | zero =>
    rw [decimal, if_pos (by omega)]
    simp
  | succ d ih =>
    rw [decimal]
    split
    · simp
    · rw [length_append, length_singleton]
      have := ih (show n / 10 < 10 ^ (d + 1) by rw [Nat.pow_succ] at small; omega)
      omega

theorem length_intText (i : BitVec 32) : (intText i).length ≤ 11 := by
  have above := i.toInt_lt
  have below := i.le_toInt
  have digits : (decimal i.toInt.natAbs).length ≤ 9 + 1 := length_decimal (by omega)
  unfold intText
  split
  · rw [length_cons]
    omega
  · omega

theorem isWide_intText (i : BitVec 32) : isWide (intText i) = false := by
  have digits : ∀ c ∈ decimal i.toInt.natAbs, c.toNat < 0x100 := by
    intro c there
    have digit := allDigits_decimal _ c there
    simp [isDigit] at digit
    omega
  unfold isWide
  rw [List.any_eq_false]
  unfold intText
  intro c there
  split at there
  · rcases mem_cons.mp there with rfl | digit
    · decide
    · simpa using digits c digit
  · simpa using digits c there

end Integers

section Indentation

variable (mem : Memory)

def spaces (k : Nat) : JsString := ⟨false, replicate k 0x20⟩

theorem len_spaces (k : Nat) : (spaces k).len = k := length_replicate

theorem isWide_replicate (k : Nat) : isWide (replicate k 0x20) = false := by
  unfold isWide
  rw [List.any_eq_false]
  intro unit there
  rw [eq_of_mem_replicate there]
  decide

theorem concatString_spaces (limit : k ≤ 2 ^ 30 - 1) (gap : Nat) :
    concatString mem (spaces k) (spaces gap) = .ok (spaces (k + gap)) ∧ k + gap ≤ 2 ^ 30 - 1 ∨
      (∃ error, concatString mem (spaces k) (spaces gap) = .error error) ∧ 2 ^ 30 - 1 < k + gap := by
  unfold concatString
  rw [len_spaces, len_spaces]
  rcases eq_or_ne gap 0 with rfl | none
  · exact .inl ⟨by simp, by omega⟩
  · rw [if_neg none]
    by_cases long : k + gap > 2 ^ 30 - 1
    · rw [if_pos long]
      exact .inr ⟨⟨_, rfl⟩, by omega⟩
    · rw [if_neg long]
      refine .inl ⟨?_, by omega⟩
      have granted := StringBuffer.jsAllocString_of_lt mem false (show k + gap < 2 ^ 30 by omega)
      simp only [spaces, Bool.or_self, granted, replicate_append_replicate]

theorem concatString3_tracks {P : StringBuffer → Utf16 → Prop} (tracks : Tracks mem P)
    (limit : k ≤ 2 ^ 30 - 1) (start : P (init mem (1 + k : Nat)) []) :
    ∃ b, concatString3 mem [0x0a] (spaces k) [] = some b.endString ∧ P b (0x0a :: replicate k 0x20) := by
  have opened : init2 mem (1 + k + 0 : Nat) (spaces k).isWideChar = init mem (1 + k : Nat) := rfl
  simp only [concatString3, length_singleton, length_nil, len_spaces, opened]
  split
  · next error => exact ⟨_, rfl, tracks.stuck start error _⟩
  have empty := tracks.short start
  have room : (init mem (1 + k : Nat)).len + [0x0a].length < 2 ^ 31 := by
    simp only [length_nil] at empty
    simp only [length_singleton]
    omega
  obtain ⟨b₁, put₁, held₁⟩ := write8_tracks mem tracks start (by simp) room
  have one := tracks.short held₁
  have room₁ : b₁.len + (spaces k).len < 2 ^ 31 := by
    simp only [nil_append, map_cons, map_nil, length_singleton] at one
    rw [len_spaces]
    omega
  obtain ⟨b₂, put₂, held₂⟩ := concat_tracks mem tracks held₁ (fun _ => isWide_replicate k) room₁
  have len := tracks.len held₂
  have room₂ : b₂.len + ([] : List Nat).length < 2 ^ 31 := by
    simp only [length_nil]
    omega
  obtain ⟨b₃, put₃, held₃⟩ := write8_tracks mem tracks held₂ (by simp) room₂
  refine ⟨b₃, ?_, by simpa [spaces] using held₃⟩
  rw [put₁, bind_eq_bind, bind_some, put₂, bind_some, put₃, bind_some]

theorem concatString3_newline (limit : k ≤ 2 ^ 30 - 1) :
    Makes (0x0a :: replicate k 0x20) (concatString3 mem [0x0a] (spaces k) []) := by
  refine makes_of_tracks mem (fun tracks start => concatString3_tracks mem tracks limit start) (by omega) fun large =>
    ?_
  rw [length_cons, length_replicate]
  omega

/-- The indentation `k` has been written, with less of it in front of the line, so a text in which there is
hardly room for it is too long already. -/
structure Room (gap k len : Nat) : Prop where
  none : gap = 0 → k = 0
  small : gap ≤ 10
  le : k ≤ len
  twice : 2 * k ≤ len + gap

theorem Room.long (room : Room gap k len) (beyond : 2 ^ 30 - 1 ≤ k + gap) : 2 ^ 30 - 1 < len := by
  obtain ⟨none, small, le, twice⟩ := room
  omega

theorem length_newline (gap k : Nat) : (newline gap k).length = if gap = 0 then 0 else k + 1 := by
  unfold newline
  split <;> simp

theorem Room.nested {len' : Nat} (room : Room gap k len)
    (longer : len + 1 + (newline gap (k + gap)).length ≤ len') : Room gap (k + gap) len' := by
  obtain ⟨none, small, le, twice⟩ := room
  rw [length_newline] at longer
  split at longer
  · next zero => exact ⟨fun _ => by omega, small, by omega, by omega⟩
  · exact ⟨fun zero => by omega, small, by omega, by omega⟩

end Indentation

theorem spaces_units_ne : (spaces gap).units ≠ [] ↔ gap ≠ 0 := by simp [spaces]

theorem commas_cons (t : Utf16) (ts : List Utf16) :
    commas (t :: ts) = t ++ ts.flatMap fun t => 0x2c :: t := by
  induction ts generalizing t with
  | nil => simp [commas]
  | cons t' ts ih => simp [commas, ih]

theorem body_eq (gap k : Nat) (items : List Utf16) :
    body gap k items = commas items ++ if !items.isEmpty then newline gap k else [] := by
  cases items <;> simp [body, commas]

end Json
