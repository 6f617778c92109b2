import Partikle.Json.Quote
import Mathlib.Data.List.Forall2

/-!
Trees of values: folds over them, their keys in the order of enumeration and the text that
`JSON.stringify` writes for them.
-/

namespace Json

open Text Strings List

structure Alg (Num α : Type) where
  null : α
  bool : Bool → α
  num : Num → α
  str : Utf16 → α
  arr : List α → α
  obj : List (Utf16 × α) → α

variable {Num α : Type}

mutual

def Value.fold (alg : Alg Num α) : Value Num → α
  | .null => alg.null
  | .bool b => alg.bool b
  | .num x => alg.num x
  | .str units => alg.str units
  | .arr vs => alg.arr (foldElements alg vs)
  | .obj ms => alg.obj (foldMembers alg ms)

def Value.foldElements (alg : Alg Num α) : List (Value Num) → List α
  | [] => []
  | v :: vs => Value.fold alg v :: foldElements alg vs

def Value.foldMembers (alg : Alg Num α) : List (Utf16 × Value Num) → List (Utf16 × α)
  | [] => []
  | (key, v) :: ms => (key, Value.fold alg v) :: foldMembers alg ms

end

namespace Value

@[simp] theorem fold_arr (alg : Alg Num α) (vs : List (Value Num)) :
    fold alg (.arr vs) = alg.arr (vs.map (fold alg)) := by
  rw [fold]
  congr 1
  induction vs with
  | nil => rfl
  | cons v vs ih => rw [foldElements, ih, map_cons]

@[simp] theorem fold_obj (alg : Alg Num α) (ms : List (Utf16 × Value Num)) :
    fold alg (.obj ms) = alg.obj (ms.map fun m => (m.1, fold alg m.2)) := by
  rw [fold]
  congr 1
  induction ms with
  | nil => rfl
  | cons m ms ih => rw [foldMembers, ih, map_cons]

theorem induct {motive : Value Num → Prop} (null : motive .null) (bool : ∀ b, motive (.bool b))
    (num : ∀ x, motive (.num x)) (str : ∀ units, motive (.str units))
    (arr : ∀ vs, (∀ v ∈ vs, motive v) → motive (.arr vs))
    (obj : ∀ ms, (∀ m ∈ ms, motive m.2) → motive (.obj ms)) (v : Value Num) : motive v :=
  match v with
  | .null => null
  | .bool b => bool b
  | .num x => num x
  | .str units => str units
  | .arr vs => arr vs fun v _ => induct null bool num str arr obj v
  | .obj ms => obj ms fun m _ => induct null bool num str arr obj m.2
termination_by sizeOf v
decreasing_by
  · have := sizeOf_lt_of_mem ‹_›
    simp only [Value.arr.sizeOf_spec]
    omega
  · have := sizeOf_lt_of_mem ‹_›
    obtain ⟨key, v⟩ := m
    simp only [Prod.mk.sizeOf_spec, Value.obj.sizeOf_spec] at this ⊢
    omega

end Value

section Keys

def numFrom (n : Nat) : Utf16 → Option Nat
  | [] => some n
  | c :: rest =>
    if ¬isDigit c.toNat then none
    else if 2 ^ 32 ≤ n * 10 + (c.toNat - 0x30) then none
    else numFrom (n * 10 + (c.toNat - 0x30)) rest

def isNumString (units : Utf16) : Option Nat :=
  if 10 < units.length then none
  else
    match units with
    | [] => none
    | c :: rest =>
      if ¬isDigit c.toNat then none
      else if c = 0x30 then if rest = [] then some 0 else none
      else numFrom (c.toNat - 0x30) rest

def arrayIndex (key : Utf16) : Option Nat := (isNumString key).filter (· ≠ 2 ^ 32 - 1)

variable {β : Type}

def isIndex (key : α → Utf16) (m : α) : Bool := (arrayIndex (key m)).isSome

def indexLe (key : α → Utf16) (m m' : α) : Bool :=
  (arrayIndex (key m)).getD 0 ≤ (arrayIndex (key m')).getD 0

/-- The order of `JS_GetOwnPropertyNames`: array indices, then the other keys as they were added. -/
def enumerate (key : α → Utf16) (members : List α) : List α :=
  (members.filter (isIndex key)).mergeSort (indexLe key) ++ members.filter fun m => !isIndex key m

theorem enumerate_map (key : α → Utf16) (f : β → α) (members : List β) :
    enumerate key (members.map f) = (enumerate (key ∘ f) members).map f := by
  unfold enumerate
  rw [map_append, filter_map, filter_map, ← map_mergeSort]
  · rfl
  · intro a _ b _
    rfl

theorem enumerate_perm (key : α → Utf16) (members : List α) : (enumerate key members).Perm members :=
  ((mergeSort_perm _ _).append_right _).trans (filter_append_perm _ members)

theorem enumerate_enumerate (key : α → Utf16) (members : List α) :
    enumerate key (enumerate key members) = enumerate key members := by
  have sorted : ((members.filter (isIndex key)).mergeSort (indexLe key)).Pairwise fun a b => indexLe key a b := by
    refine pairwise_mergeSort ?_ ?_ _
    · simp only [indexLe, decide_eq_true_eq]
      omega
    · simp only [indexLe, Bool.or_eq_true, decide_eq_true_eq]
      omega
  have indices : ∀ m ∈ (members.filter (isIndex key)).mergeSort (indexLe key), isIndex key m = true := by
    intro m there
    exact (mem_filter.mp (mem_mergeSort.mp there)).2
  have others : ∀ m ∈ members.filter fun m => !isIndex key m, isIndex key m = false := by
    simp
  have first : (enumerate key members).filter (isIndex key) =
      (members.filter (isIndex key)).mergeSort (indexLe key) := by
    have none : (members.filter fun m => !isIndex key m).filter (isIndex key) = [] :=
      filter_eq_nil_iff.mpr fun m there => by simp [others m there]
    rw [enumerate, filter_append, filter_eq_self.mpr indices, none, append_nil]
  have second : ((enumerate key members).filter fun m => !isIndex key m) = members.filter fun m => !isIndex key m := by
    have none : (((members.filter (isIndex key)).mergeSort (indexLe key)).filter fun m => !isIndex key m) = [] :=
      filter_eq_nil_iff.mpr fun m there => by simp [indices m there]
    rw [enumerate, filter_append, none, nil_append]
    exact filter_eq_self.mpr fun m there => by simp [others m there]
  rw [enumerate, first, second, mergeSort_of_pairwise sorted, enumerate]

end Keys

namespace Value

def map {Num' : Type} (f : Num → Num') : Value Num → Value Num' :=
  fold ⟨.null, .bool, fun x => .num (f x), .str, .arr, .obj⟩

def listed : Value Num → Value Num :=
  fold ⟨.null, .bool, .num, .str, .arr, fun ms => .obj (enumerate Prod.fst ms)⟩

def depth : Value Num → Nat :=
  fold ⟨1, fun _ => 1, fun _ => 1, fun _ => 1, fun ds => 1 + ds.foldr max 0,
    fun ms => 1 + (ms.map Prod.snd).foldr max 0⟩

def Distinct : Value Num → Prop :=
  fold ⟨True, fun _ => True, fun _ => True, fun _ => True, fun ps => ∀ p ∈ ps, p,
    fun ms => (ms.map Prod.fst).Nodup ∧ ∀ m ∈ ms, m.2⟩

section Lemmas

variable {Num' : Type} (f : Num → Num')

theorem map_arr (vs : List (Value Num)) : map f (.arr vs) = .arr (vs.map (map f)) := fold_arr _ vs

theorem map_obj (ms : List (Utf16 × Value Num)) :
    map f (.obj ms) = .obj (ms.map fun m => (m.1, map f m.2)) := fold_obj _ ms

theorem listed_arr (vs : List (Value Num)) : listed (.arr vs) = .arr (vs.map listed) := fold_arr _ vs

theorem listed_obj (ms : List (Utf16 × Value Num)) :
    listed (.obj ms) = .obj ((enumerate Prod.fst ms).map fun m => (m.1, listed m.2)) := by
  rw [listed, fold_obj]
  exact congrArg Value.obj (enumerate_map Prod.fst (fun m => (m.1, listed m.2)) ms)

theorem listed_map (v : Value Num) : (v.map f).listed = v.listed.map f := by
  induction v using induct with
  | arr vs ih =>
    rw [map_arr, listed_arr, listed_arr, map_arr, map_map, map_map]
    exact congrArg Value.arr (map_congr_left ih)
  | obj ms ih =>
    rw [map_obj, listed_obj, listed_obj, map_obj, enumerate_map, map_map, map_map]
    refine congrArg Value.obj (map_congr_left fun m there => ?_)
    exact congrArg (Prod.mk m.1) (ih m ((enumerate_perm Prod.fst ms).mem_iff.mp there))
  | _ => rfl

theorem listed_listed (v : Value Num) : v.listed.listed = v.listed := by
  induction v using induct with
  | arr vs ih =>
    rw [listed_arr, listed_arr, map_map]
    exact congrArg Value.arr (map_congr_left ih)
  | obj ms ih =>
    have same : enumerate (Prod.fst ∘ fun m : Utf16 × Value Num => (m.1, m.2.listed))
        (enumerate Prod.fst ms) = enumerate Prod.fst ms := enumerate_enumerate Prod.fst ms
    rw [listed_obj, listed_obj, enumerate_map, map_map, same]
    refine congrArg Value.obj (map_congr_left fun m there => ?_)
    exact congrArg (Prod.mk m.1) (ih m ((enumerate_perm Prod.fst ms).mem_iff.mp there))
  | _ => rfl

variable {d : Nat} {vs : List (Value Num)} {ms : List (Utf16 × Value Num)}

theorem foldr_max_le {ds : List Nat} : ds.foldr max 0 ≤ d ↔ ∀ n ∈ ds, n ≤ d := by
  induction ds with
  | nil => simp
  | cons n ds ih => rw [foldr_cons, Nat.max_le, ih, forall_mem_cons]

theorem depth_arr_le : depth (.arr vs) ≤ d + 1 ↔ ∀ v ∈ vs, depth v ≤ d := by
  rw [depth, fold_arr]
  simp only [Nat.add_comm 1, Nat.add_le_add_iff_right, foldr_max_le, forall_mem_map]

theorem depth_obj_le : depth (.obj ms) ≤ d + 1 ↔ ∀ m ∈ ms, depth m.2 ≤ d := by
  rw [depth, fold_obj]
  simp only [Nat.add_comm 1, Nat.add_le_add_iff_right, foldr_max_le, forall_mem_map, map_map]
  rfl

theorem depth_pos (v : Value Num) : 0 < v.depth := by
  cases v with
  | arr _ | obj _ => exact Nat.add_pos_left Nat.one_pos _
  | _ => exact Nat.one_pos

theorem depth_lt_arr {v : Value Num} (there : v ∈ vs) : v.depth < (Value.arr vs).depth := by
  obtain ⟨d, is⟩ := Nat.exists_eq_succ_of_ne_zero (depth_pos (Value.arr vs)).ne'
  have := depth_arr_le.mp (Nat.le_of_eq is) v there
  omega

theorem depth_lt_obj {m : Utf16 × Value Num} (there : m ∈ ms) : m.2.depth < (Value.obj ms).depth := by
  obtain ⟨d, is⟩ := Nat.exists_eq_succ_of_ne_zero (depth_pos (Value.obj ms)).ne'
  have := depth_obj_le.mp (Nat.le_of_eq is) m there
  omega

theorem depth_le_congr {N M : Type} {v : Value N} {w : Value M} (succ : ∀ d, v.depth ≤ d + 1 ↔ w.depth ≤ d + 1) :
    ∀ d, v.depth ≤ d ↔ w.depth ≤ d
  | 0 => by simp [Nat.pos_iff_ne_zero.mp (depth_pos _)]
  | d + 1 => succ d

theorem depth_listed_le (v : Value Num) : ∀ d, v.listed.depth ≤ d ↔ v.depth ≤ d := by
  induction v using induct with
  | arr vs ih =>
    refine depth_le_congr fun d => ?_
    rw [listed_arr, depth_arr_le, depth_arr_le, forall_mem_map]
    exact forall₂_congr fun v there => ih v there d
  | obj ms ih =>
    refine depth_le_congr fun d => ?_
    rw [listed_obj, depth_obj_le, depth_obj_le, forall_mem_map]
    simp only [(enumerate_perm Prod.fst ms).mem_iff]
    exact forall₂_congr fun m there => ih m there d
  | _ => exact fun d => .rfl

theorem depth_map_le (v : Value Num) : ∀ d, (v.map f).depth ≤ d ↔ v.depth ≤ d := by
  induction v using induct with
  | arr vs ih =>
    refine depth_le_congr fun d => ?_
    rw [map_arr, depth_arr_le, depth_arr_le, forall_mem_map]
    exact forall₂_congr fun v there => ih v there d
  | obj ms ih =>
    refine depth_le_congr fun d => ?_
    rw [map_obj, depth_obj_le, depth_obj_le, forall_mem_map]
    exact forall₂_congr fun m there => ih m there d
  | _ => exact fun d => .rfl

theorem distinct_arr : Distinct (.arr vs) ↔ ∀ v ∈ vs, Distinct v := by
  rw [Distinct, fold_arr]
  exact forall_mem_map

theorem distinct_obj : Distinct (.obj ms) ↔ (ms.map Prod.fst).Nodup ∧ ∀ m ∈ ms, Distinct m.2 := by
  rw [Distinct, fold_obj]
  simp only [map_map, forall_mem_map]
  rfl

theorem Distinct.listed {v : Value Num} (distinct : v.Distinct) : v.listed.Distinct := by
  induction v using induct with
  | arr vs ih =>
    rw [listed_arr, distinct_arr, forall_mem_map]
    exact fun v there => ih v there (distinct_arr.mp distinct v there)
  | obj ms ih =>
    obtain ⟨nodup, all⟩ := distinct_obj.mp distinct
    have perm := enumerate_perm Prod.fst ms
    rw [listed_obj, distinct_obj, forall_mem_map, map_map]
    exact ⟨((perm.map Prod.fst).nodup_iff).mpr nodup,
      fun m there => ih m (perm.mem_iff.mp there) (all m (perm.mem_iff.mp there))⟩
  | _ => exact distinct

end Lemmas

end Value

section Printing

def decimal (n : Nat) : Utf16 :=
  if n < 10 then [.ofNat 16 (0x30 + n)] else decimal (n / 10) ++ [.ofNat 16 (0x30 + n % 10)]

def intText (i : BitVec 32) : Utf16 :=
  if i.toInt < 0 then 0x2d :: decimal i.toInt.natAbs else decimal i.toInt.natAbs

def newline (gap indent : Nat) : Utf16 :=
  if gap = 0 then [] else 0x0a :: replicate indent 0x20

def blank (gap : Nat) : Utf16 := if gap = 0 then [] else [0x20]

def commas : List Utf16 → Utf16
  | [] => []
  | [t] => t
  | t :: ts => t ++ 0x2c :: commas ts

def elementText (gap indent : Nat) (t : Nat → Utf16) : Utf16 :=
  newline gap (indent + gap) ++ t (indent + gap)

def memberText (gap indent : Nat) (m : Utf16 × (Nat → Utf16)) : Utf16 :=
  newline gap (indent + gap) ++ (quote m.1 ++ 0x3a :: (blank gap ++ m.2 (indent + gap)))

def body (gap indent : Nat) (items : List Utf16) : Utf16 :=
  if items = [] then [] else commas items ++ newline gap indent

def textAlg (gap : Nat) : Alg (BitVec 32) (Nat → Utf16) where
  null := fun _ => [0x6e, 0x75, 0x6c, 0x6c]
  bool := fun b _ => if b then [0x74, 0x72, 0x75, 0x65] else [0x66, 0x61, 0x6c, 0x73, 0x65]
  num := fun i _ => intText i
  str := fun units _ => quote units
  arr := fun ts indent => 0x5b :: (body gap indent (ts.map (elementText gap indent)) ++ [0x5d])
  obj := fun ms indent => 0x7b :: (body gap indent (ms.map (memberText gap indent)) ++ [0x7d])

/-- The text of a tree behind an indentation, with its keys in the order they have. -/
def Value.text (gap : Nat) : Value (BitVec 32) → Nat → Utf16 := fold (textAlg gap)

theorem text_arr (gap : Nat) (vs : List (Value (BitVec 32))) (indent : Nat) :
    (Value.arr vs).text gap indent = 0x5b :: (body gap indent (vs.map fun v => elementText gap indent (v.text gap)) ++
      [0x5d]) := by
  rw [Value.text, Value.fold_arr]
  simp only [textAlg, map_map]
  rfl

theorem text_obj (gap : Nat) (ms : List (Utf16 × Value (BitVec 32))) (indent : Nat) :
    (Value.obj ms).text gap indent = 0x7b :: (body gap indent
      (ms.map fun m => memberText gap indent (m.1, m.2.text gap)) ++ [0x7d]) := by
  rw [Value.text, Value.fold_obj]
  simp only [textAlg, map_map]
  rfl

end Printing

end Json
