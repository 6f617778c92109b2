import Mathlib.Data.List.Perm.Basic
import Mathlib.Data.List.Nodup
import Mathlib.Data.Nat.Bitwise

/-!
The functions that exchange two blocks of memory word by word, and what they do to an array of elements.
-/

namespace Rqsort

open List

abbrev Memory := Nat → BitVec 8

section Words

def exchangeWord (width a b : Nat) (mem : Memory) : Memory := fun x =>
  if b ≤ x ∧ x < b + width then mem (a + (x - b))
  else if a ≤ x ∧ x < a + width then mem (b + (x - a))
  else mem x

def exchangeWords (width : Nat) : Nat → Nat → Nat → Memory → Memory
  | 0, _, _, mem => mem
  | count + 1, a, b, mem => exchangeWords width count (a + width) (b + width) (exchangeWord width a b mem)

abbrev Exchange := Nat → Nat → Nat → Memory → Memory

def exchangeBytes : Exchange := fun a b size => exchangeWords 1 size a b
def exchangeOneByte : Exchange := fun a b _ => exchangeWord 1 a b
def exchangeInt16s : Exchange := fun a b size => exchangeWords 2 (size / 2) a b
def exchangeOneInt16 : Exchange := fun a b _ => exchangeWord 2 a b
def exchangeInt32s : Exchange := fun a b size => exchangeWords 4 (size / 4) a b
def exchangeOneInt32 : Exchange := fun a b _ => exchangeWord 4 a b
def exchangeInt64s : Exchange := fun a b size => exchangeWords 8 (size / 8) a b
def exchangeOneInt64 : Exchange := fun a b _ => exchangeWord 8 a b
def exchangeInt128s : Exchange := fun a b size => exchangeWords 16 (size / 16) a b
def exchangeOneInt128 : Exchange := fun a b _ => exchangeWord 16 a b

def exchangeFunc (base size : Nat) : Exchange :=
  match (base ||| size) &&& 15 with
  | 0 => if size = 16 then exchangeOneInt128 else exchangeInt128s
  | 8 => if size = 8 then exchangeOneInt64 else exchangeInt64s
  | 4 | 12 => if size = 4 then exchangeOneInt32 else exchangeInt32s
  | 2 | 6 | 10 | 14 => if size = 2 then exchangeOneInt16 else exchangeInt16s
  | _ => if size = 1 then exchangeOneByte else exchangeBytes

def exchanged (a b size : Nat) (mem : Memory) : Memory := fun x =>
  if a ≤ x ∧ x < a + size then mem (b + (x - a))
  else if b ≤ x ∧ x < b + size then mem (a + (x - b))
  else mem x

def Apart (a b size : Nat) : Prop := a = b ∨ a + size ≤ b ∨ b + size ≤ a

variable {a b size x : Nat}

theorem exchangeWord_eq {width : Nat} (apart : Apart a b width) (mem : Memory) :
    exchangeWord width a b mem = exchanged a b width mem := by
  funext x
  unfold exchangeWord exchanged
  rcases apart with rfl | apart
  · split <;> rfl
  · by_cases inB : b ≤ x ∧ x < b + width
    · rw [if_pos inB, if_neg (by omega), if_pos inB]
    · rw [if_neg inB]
      by_cases inA : a ≤ x ∧ x < a + width
      · rw [if_pos inA, if_pos inA]
      · rw [if_neg inA, if_neg inA, if_neg inB]

theorem exchanged_left (mem : Memory) (lower : a ≤ x) (upper : x < a + size) :
    exchanged a b size mem x = mem (b + (x - a)) :=
  if_pos ⟨lower, upper⟩

theorem exchanged_right (apart : Apart a b size) (mem : Memory) (lower : b ≤ x)
    (upper : x < b + size) : exchanged a b size mem x = mem (a + (x - b)) := by
  unfold exchanged
  rcases apart with rfl | apart
  · rw [if_pos ⟨lower, upper⟩]
  · rw [if_neg (by omega), if_pos ⟨lower, upper⟩]

theorem exchanged_out (mem : Memory) (outA : x < a ∨ a + size ≤ x) (outB : x < b ∨ b + size ≤ x) :
    exchanged a b size mem x = mem x := by
  unfold exchanged
  rw [if_neg (by omega), if_neg (by omega)]

theorem exchanged_self (a size : Nat) (mem : Memory) : exchanged a a size mem = mem := by
  funext x
  unfold exchanged
  split
  · next inside => rw [Nat.add_sub_cancel' inside.1]
  · rfl

theorem exchanged_add {first rest : Nat} (apart : Apart a b (first + rest)) (mem : Memory) :
    exchanged (a + first) (b + first) rest (exchanged a b first mem) = exchanged a b (first + rest) mem := by
  rcases apart with rfl | apart
  · simp [exchanged_self]
  have whole : Apart a b (first + rest) := .inr apart
  have head : Apart a b first := by unfold Apart; omega
  have tail : Apart (a + first) (b + first) rest := by unfold Apart; omega
  funext x
  by_cases inA : a ≤ x ∧ x < a + (first + rest)
  · rw [exchanged_left mem inA.1 inA.2]
    by_cases early : x < a + first
    · rw [exchanged_out _ (by omega) (by omega), exchanged_left mem inA.1 early]
    · rw [exchanged_left _ (by omega) (by omega), exchanged_out _ (by omega) (by omega)]
      congr 1
      omega
  · by_cases inB : b ≤ x ∧ x < b + (first + rest)
    · rw [exchanged_right whole mem inB.1 inB.2]
      by_cases early : x < b + first
      · rw [exchanged_out _ (by omega) (by omega), exchanged_right head mem inB.1 early]
      · rw [exchanged_right tail _ (by omega) (by omega), exchanged_out _ (by omega) (by omega)]
        congr 1
        omega
    · rw [exchanged_out _ (by omega) (by omega), exchanged_out _ (by omega) (by omega),
      exchanged_out _ (by omega) (by omega)]

theorem exchangeWords_eq {width count : Nat} (apart : Apart a b (count * width)) (mem : Memory) :
    exchangeWords width count a b mem = exchanged a b (count * width) mem := by
  induction count generalizing a b mem with
  | zero =>
    funext x
    simp only [exchangeWords, exchanged, Nat.zero_mul]
    rw [if_neg (by omega), if_neg (by omega)]
  | succ count ih =>
    have size : (count + 1) * width = width + count * width := by rw [Nat.succ_mul, Nat.add_comm]
    rw [size] at apart ⊢
    have first : Apart a b width := by unfold Apart at apart ⊢; omega
    have later : Apart (a + width) (b + width) (count * width) := by unfold Apart at apart ⊢; omega
    rw [exchangeWords, exchangeWord_eq first, ih later, exchanged_add apart]

theorem dvd_of_dvd_or {base bits : Nat} (divides : 2 ^ bits ∣ base ||| size) : 2 ^ bits ∣ size := by
  rw [Nat.dvd_iff_mod_eq_zero] at divides ⊢
  rw [Nat.or_mod_two_pow, Nat.or_eq_zero_iff] at divides
  exact divides.2

def Fits (size : Nat) (exchange : Exchange) : Prop :=
  (∃ bits, 2 ^ bits ∣ size ∧ exchange = fun a b bytes => exchangeWords (2 ^ bits) (bytes / 2 ^ bits) a b) ∨
    size ≤ 16 ∧ exchange = fun a b _ => exchangeWord size a b

theorem fits_pick (bits : Nat) {base rest : Nat} (whole : 2 ^ bits ∣ 16) (is : (base ||| size) % 16 = rest)
    (divides : 2 ^ bits ∣ rest) : Fits size (if size = 2 ^ bits then fun a b _ => exchangeWord (2 ^ bits) a b
      else fun a b bytes => exchangeWords (2 ^ bits) (bytes / 2 ^ bits) a b) := by
  subst is
  by_cases is : size = 2 ^ bits
  · rw [if_pos is, is]
    exact .inr ⟨Nat.le_of_dvd (by decide) whole, rfl⟩
  · rw [if_neg is]
    exact .inl ⟨bits, dvd_of_dvd_or ((Nat.dvd_mod_iff whole).mp divides), rfl⟩

theorem exchangeBytes_eq : exchangeBytes = fun a b bytes => exchangeWords 1 (bytes / 1) a b := by
  funext a b bytes
  rw [exchangeBytes, Nat.div_one]

theorem exchangeFunc_fits (base size : Nat) : Fits size (exchangeFunc base size) := by
  have low : (base ||| size) &&& 15 = (base ||| size) % 16 := Nat.and_two_pow_sub_one_eq_mod (base ||| size) 4
  unfold exchangeFunc
  rw [low]
  split
  · next is => exact fits_pick 4 (by decide) is (by decide)
  · next is => exact fits_pick 3 (by decide) is (by decide)
  · next is => exact fits_pick 2 (by decide) is (by decide)
  · next is => exact fits_pick 2 (by decide) is (by decide)
  · next is => exact fits_pick 1 (by decide) is (by decide)
  · next is => exact fits_pick 1 (by decide) is (by decide)
  · next is => exact fits_pick 1 (by decide) is (by decide)
  · next is => exact fits_pick 1 (by decide) is (by decide)
  · rw [exchangeBytes_eq]
    exact fits_pick 0 (one_dvd 16) (Eq.refl ((base ||| size) % 16)) (one_dvd _)

theorem Fits.whole {exchange : Exchange} (fits : Fits size exchange) (apart : Apart a b size)
    (mem : Memory) : exchange a b size mem = exchanged a b size mem := by
  rcases fits with ⟨bits, divides, rfl⟩ | ⟨-, rfl⟩
  · have bytes := Nat.div_mul_cancel divides
    show exchangeWords (2 ^ bits) (size / 2 ^ bits) a b mem = _
    rw [exchangeWords_eq (by rwa [bytes]), bytes]
  · exact exchangeWord_eq apart mem

theorem Fits.block {exchange : Exchange} (fits : Fits (size ||| 128) exchange) {count : Nat}
    (apart : Apart a b (count * size)) (mem : Memory) :
    exchange a b (count * size) mem = exchanged a b (count * size) mem := by
  rcases fits with ⟨bits, divides, rfl⟩ | ⟨small, -⟩
  · rw [Nat.lor_comm] at divides
    have bytes := Nat.div_mul_cancel (Nat.dvd_mul_left_of_dvd (dvd_of_dvd_or divides) count)
    show exchangeWords (2 ^ bits) (count * size / 2 ^ bits) a b mem = _
    rw [exchangeWords_eq (by rwa [bytes]), bytes]
  · have large : 128 ≤ size ||| 128 := Nat.right_le_or
    omega

end Words

section Elements

variable (base size : Nat)

def element (mem : Memory) (i : Nat) : List (BitVec 8) := (range size).map fun k => mem (base + i * size + k)

def elements (nmemb : Nat) (mem : Memory) : List (List (BitVec 8)) := (range nmemb).map (element base size mem)

/-- The elements are the same in some order, and no other byte has changed. -/
structure Rearranged (nmemb : Nat) (mem mem' : Memory) : Prop where
  perm : (elements base size nmemb mem').Perm (elements base size nmemb mem)
  outside : ∀ x, x < base ∨ base + nmemb * size ≤ x → mem' x = mem x

variable {base size} {nmemb : Nat} {mem mem' mem'' : Memory}

theorem Rearranged.refl : Rearranged base size nmemb mem mem := ⟨.refl _, fun _ _ => rfl⟩

theorem Rearranged.trans (first : Rearranged base size nmemb mem mem')
    (second : Rearranged base size nmemb mem' mem'') :
    Rearranged base size nmemb mem mem'' :=
  ⟨second.perm.trans first.perm, fun x out => (second.outside x out).trans (first.outside x out)⟩

/-- Where the element at a place comes from when `count` elements at `i` and at `j` are exchanged. -/
def origin (i j count k : Nat) : Nat :=
  if i ≤ k ∧ k < i + count then k + (j - i) else if j ≤ k ∧ k < j + count then k - (j - i) else k

variable {i j count k : Nat}

theorem origin_origin (apart : i + count ≤ j) (k : Nat) : origin i j count (origin i j count k) = k := by
  unfold origin
  by_cases first : i ≤ k ∧ k < i + count
  · rw [if_pos first, if_neg (by omega), if_pos (by omega)]
    omega
  · rw [if_neg first]
    by_cases second : j ≤ k ∧ k < j + count
    · rw [if_pos second, if_pos (by omega)]
      omega
    · rw [if_neg second, if_neg first, if_neg second]

theorem origin_lt (inside : j + count ≤ nmemb) (lt : k < nmemb) : origin i j count k < nmemb := by
  unfold origin
  split
  · omega
  · split <;> omega

theorem range_map_origin (apart : i + count ≤ j) (inside : j + count ≤ nmemb) :
    ((range nmemb).map (origin i j count)).Perm (range nmemb) := by
  have injective : Function.Injective (origin i j count) := fun k k' same => by
    rw [← origin_origin apart k, same, origin_origin apart]
  refine (perm_ext_iff_of_nodup (nodup_range.map injective) nodup_range).mpr fun k => ?_
  simp only [List.mem_map, mem_range]
  constructor
  · rintro ⟨k', lt, rfl⟩
    exact origin_lt inside lt
  · intro lt
    exact ⟨origin i j count k, origin_lt inside lt, origin_origin apart k⟩

theorem addr_le (le : i ≤ k) (t : Nat) : base + i * size ≤ base + k * size + t := by
  have := Nat.mul_le_mul_right size le
  omega

theorem addr_lt {t : Nat} (lt : k < i) (inside : t < size) : base + k * size + t < base + i * size := by
  have := Nat.mul_le_mul_right size lt
  rw [Nat.succ_mul] at this
  omega

theorem apart_addr (apart : i + count ≤ j) : Apart (base + i * size) (base + j * size) (count * size) := by
  have := Nat.mul_le_mul_right size apart
  rw [Nat.add_mul] at this
  unfold Apart
  omega

theorem element_exchanged (apart : i + count ≤ j) (mem : Memory) (k : Nat) :
    element base size (exchanged (base + i * size) (base + j * size) (count * size) mem) k = element base size mem
      (origin i j count k) := by
  refine map_congr_left fun t member => ?_
  have inside : t < size := mem_range.mp member
  have ends (i : Nat) : base + i * size + count * size = base + (i + count) * size := by
    rw [Nat.add_mul, Nat.add_assoc]
  have out {i : Nat} (other : ¬ (i ≤ k ∧ k < i + count)) :
      base + k * size + t < base + i * size ∨ base + i * size + count * size ≤ base + k * size + t := by
    rw [ends]
    rcases Nat.lt_or_ge k i with below | above
    · exact .inl (addr_lt below inside)
    · exact .inr (addr_le (by omega) t)
  unfold origin
  by_cases first : i ≤ k ∧ k < i + count
  · rw [if_pos first, exchanged_left mem (addr_le first.1 t) (by rw [ends]; exact addr_lt first.2 inside)]
    obtain ⟨d, rfl⟩ := Nat.exists_eq_add_of_le first.1
    rw [show i + d + (j - i) = j + d by omega, Nat.add_mul, Nat.add_mul]
    congr 1
    omega
  · rw [if_neg first]
    by_cases second : j ≤ k ∧ k < j + count
    · rw [if_pos second, exchanged_right (apart_addr apart) mem (addr_le second.1 t)
        (by rw [ends]; exact addr_lt second.2 inside)]
      obtain ⟨d, rfl⟩ := Nat.exists_eq_add_of_le second.1
      rw [show j + d - (j - i) = i + d by omega, Nat.add_mul, Nat.add_mul]
      congr 1
      omega
    · rw [if_neg second, exchanged_out mem (out first) (out second)]

theorem rearranged_exchanged (apart : i + count ≤ j) (inside : j + count ≤ nmemb) (mem : Memory) :
    Rearranged base size nmemb mem (exchanged (base + i * size) (base + j * size) (count * size) mem) := by
  have top := Nat.mul_le_mul_right size inside
  have order := Nat.mul_le_mul_right size apart
  rw [Nat.add_mul] at top order
  constructor
  · have moved : elements base size nmemb (exchanged (base + i * size) (base + j * size) (count * size) mem) =
        ((range nmemb).map (origin i j count)).map (element base size mem) := by
      rw [List.map_map]
      exact map_congr_left fun k _ => element_exchanged apart mem k
    rw [moved]
    exact (range_map_origin apart inside).map _
  · intro x out
    exact exchanged_out mem (by omega) (by omega)

theorem exchanged_comm {a b bytes : Nat} (apart : Apart a b bytes) (mem : Memory) :
    exchanged a b bytes mem = exchanged b a bytes mem := by
  rw [← exchangeWord_eq apart]
  rfl

theorem rearranged_swap (inside : i < nmemb) (inside' : j < nmemb) (mem : Memory) :
    Apart (base + i * size) (base + j * size) size ∧
      Rearranged base size nmemb mem (exchanged (base + i * size) (base + j * size) size mem) := by
  have forward {i j : Nat} (below : i < j) (inside : j < nmemb) : Apart (base + i * size) (base + j * size) size ∧
      Rearranged base size nmemb mem (exchanged (base + i * size) (base + j * size) size mem) := by
    have both :=
      And.intro (@apart_addr base size i j 1 below) (@rearranged_exchanged base size nmemb i j 1 below inside mem)
    rwa [Nat.one_mul] at both
  rcases Nat.lt_trichotomy i j with below | rfl | above
  · exact forward below inside'
  · rw [exchanged_self]
    exact ⟨.inl rfl, .refl⟩
  · obtain ⟨apart, moved⟩ := forward above inside
    have apart' : Apart (base + i * size) (base + j * size) size := by unfold Apart at apart ⊢; omega
    exact ⟨apart', exchanged_comm apart' mem ▸ moved⟩

end Elements

end Rqsort
