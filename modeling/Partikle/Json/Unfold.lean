import Partikle.Json.Walk

/-!
The trees that the values of a heap unfold to, and what `JSON.stringify` writes for them. Objects may be
shared.
-/

namespace Json

open Text Strings StringBuffer List

section Unfolding

variable {n : Nat} (heap : Fin n → Obj n)

def unfoldsAlg : Alg (BitVec 32) (JsValue n → Prop) where
  null := fun val => val = .null
  bool := fun b val => val = .primitive (.bool b)
  num := fun i val => val = .primitive (.int i)
  str := fun units val => ∃ str : LiveString, val = .primitive (.string str) ∧ str.units = units
  arr := fun ps val => ∃ o elements, val = .object o ∧ heap o = .array elements ∧
    Forall₂ (fun p element => p element) ps elements
  obj := fun ms val => ∃ o members, val = .object o ∧ heap o = .plain members ∧
    Forall₂ (fun m entry => m.1 = entry.1.units ∧ m.2 entry.2) ms members.entries

def Unfolds : Value (BitVec 32) → JsValue n → Prop := Value.fold (unfoldsAlg heap)

variable {heap} {val : JsValue n} {v : Value (BitVec 32)} {α β : Type}

theorem unfolds_arr {vs : List (Value (BitVec 32))} :
    Unfolds heap (.arr vs) val ↔ ∃ o elements, val = .object o ∧ heap o = .array elements ∧
      Forall₂ (Unfolds heap) vs elements := by
  rw [Unfolds, Value.fold_arr]
  simp [unfoldsAlg]

theorem unfolds_obj {ms : List (Utf16 × Value (BitVec 32))} :
    Unfolds heap (.obj ms) val ↔ ∃ o members, val = .object o ∧ heap o = .plain members ∧
      Forall₂ (fun m entry => m.1 = entry.1.units ∧ Unfolds heap m.2 entry.2) ms members.entries := by
  rw [Unfolds, Value.fold_obj]
  simp [unfoldsAlg]

theorem jsJsonCheck_of_unfolds (unfolds : Unfolds heap v val) :
    jsJsonCheck heap val = val ∧ val.isUndefined = false := by
  cases v with
  | null | bool _ | num _ =>
    cases unfolds
    exact ⟨rfl, rfl⟩
  | str units =>
    obtain ⟨str, rfl, -⟩ := unfolds
    exact ⟨rfl, rfl⟩
  | arr vs =>
    obtain ⟨o, elements, rfl, is, -⟩ := unfolds_arr.mp unfolds
    exact ⟨by simp [jsJsonCheck, is], rfl⟩
  | obj ms =>
    obtain ⟨o, members, rfl, is, -⟩ := unfolds_obj.mp unfolds
    exact ⟨by simp [jsJsonCheck, is], rfl⟩

theorem elementOf_of_unfolds (unfolds : Unfolds heap v val) : elementOf heap val = val := by
  obtain ⟨same, defined⟩ := jsJsonCheck_of_unfolds unfolds
  simp [elementOf, same, defined]

variable {r : α → β → Prop} {l : List α} {m : List β}

theorem forall₂_unique {l' : List α} (unique : ∀ a ∈ l, ∀ a' b, r a b → r a' b → a = a') (first : Forall₂ r l m)
    (second : Forall₂ r l' m) : l = l' := by
  induction first generalizing l' with
  | nil =>
    cases second
    rfl
  | cons head tail ih =>
    cases second with
    | cons head' tail' =>
      rw [unique _ (by simp) _ _ head head', ih (fun a there => unique a (by simp [there])) tail']

theorem unfolds_inv (unfolds : Unfolds heap v val) : match val with
    | .null => v = .null
    | .primitive (.bool b) => v = .bool b
    | .primitive (.int i) => v = .num i
    | .primitive (.string str) => v = .str str.units
    | .object o =>
      (∃ elements vs, heap o = .array elements ∧ v = .arr vs ∧ Forall₂ (Unfolds heap) vs elements) ∨
        ∃ members ms, heap o = .plain members ∧ v = .obj ms ∧
          Forall₂ (fun m entry => m.1 = entry.1.units ∧ Unfolds heap m.2 entry.2) ms members.entries
    | _ => False := by
  cases v with
  | str units =>
    obtain ⟨str, rfl, rfl⟩ := unfolds
    rfl
  | arr vs =>
    obtain ⟨o, elements, rfl, is, all⟩ := unfolds_arr.mp unfolds
    exact .inl ⟨elements, vs, is, rfl, all⟩
  | obj ms =>
    obtain ⟨o, members, rfl, is, all⟩ := unfolds_obj.mp unfolds
    exact .inr ⟨members, ms, is, rfl, all⟩
  | _ =>
    cases unfolds
    rfl

theorem unfolds_unique (v : Value (BitVec 32)) :
    ∀ {v' : Value (BitVec 32)} {val : JsValue n}, Unfolds heap v val → Unfolds heap v' val → v = v' := by
  induction v using Value.induct with
  | arr vs ih =>
    intro v' val unfolds unfolds'
    obtain ⟨o, elements, rfl, is, all⟩ := unfolds_arr.mp unfolds
    rcases unfolds_inv unfolds' with ⟨elements', vs', is', rfl, all'⟩ | ⟨members, ms, is', -⟩
    · cases is.symm.trans is'
      exact congrArg Value.arr (forall₂_unique (r := Unfolds heap) (fun v there v' val => ih v there) all all')
    · cases is.symm.trans is'
  | obj ms ih =>
    intro v' val unfolds unfolds'
    obtain ⟨o, members, rfl, is, all⟩ := unfolds_obj.mp unfolds
    rcases unfolds_inv unfolds' with ⟨elements, vs, is', -⟩ | ⟨members', ms', is', rfl, all'⟩
    · cases is.symm.trans is'
    · cases is.symm.trans is'
      refine congrArg Value.obj (forall₂_unique (fun m there m' entry first second => ?_) all all')
      exact Prod.ext (first.1.trans second.1.symm) (ih m there first.2 second.2)
  | str units =>
    intro v' val unfolds unfolds'
    obtain ⟨str, rfl, rfl⟩ := unfolds
    exact (unfolds_inv unfolds').symm
  | _ =>
    intro v' val unfolds unfolds'
    cases unfolds
    exact (unfolds_inv unfolds').symm

theorem exists_of_forall₂ (all : Forall₂ r l m) : ∀ a ∈ l, ∃ b ∈ m, r a b := by
  induction all with
  | nil => simp
  | cons head tail ih =>
    intro a there
    rcases mem_cons.mp there with rfl | later
    · exact ⟨_, by simp, head⟩
    · obtain ⟨b, inside, related⟩ := ih a later
      exact ⟨b, .tail _ inside, related⟩

theorem distinct_of_unfolds (v : Value (BitVec 32)) : ∀ {val : JsValue n}, Unfolds heap v val → v.Distinct := by
  induction v using Value.induct with
  | arr vs ih =>
    intro val unfolds
    obtain ⟨o, elements, rfl, is, all⟩ := unfolds_arr.mp unfolds
    refine Value.distinct_arr.mpr fun v there => ?_
    obtain ⟨val, -, unfolds'⟩ := exists_of_forall₂ all v there
    exact ih v there unfolds'
  | obj ms ih =>
    intro val unfolds
    obtain ⟨o, members, rfl, is, all⟩ := unfolds_obj.mp unfolds
    have keys : ms.map Prod.fst = members.entries.map fun e => e.1.units := by
      rw [← forall₂_eq_eq_eq, forall₂_map_left_iff, forall₂_map_right_iff]
      exact all.imp fun m entry both => both.1
    refine Value.distinct_obj.mpr ⟨keys ▸ members.nodup, fun m there => ?_⟩
    obtain ⟨entry, -, unfolds'⟩ := exists_of_forall₂ all m there
    exact ih m there unfolds'.2
  | _ => exact fun _ => trivial

end Unfolding

variable {v : Value (BitVec 32)} {b : StringBuffer} {frames : Nat}

section Writing

variable {α β : Type} {r : α → β → Prop} {l : List α} {m : List β}

theorem exists_pairs (all : Forall₂ r l m) :
    ∃ pairs : List { p : α × β // r p.1 p.2 }, l = pairs.map (·.1.1) ∧ m = pairs.map (·.1.2) := by
  induction all with
  | nil => exact ⟨[], rfl, rfl⟩
  | @cons a b l m head tail ih =>
    obtain ⟨pairs, rfl, rfl⟩ := ih
    exact ⟨⟨(a, b), head⟩ :: pairs, rfl, rfl⟩

theorem enumerate_forall₂ {key : α → Utf16} {key' : β → Utf16}
    (agree : ∀ a b, r a b → key a = key' b) (all : Forall₂ r l m) : Forall₂ r (enumerate key l) (enumerate key' m) := by
  obtain ⟨pairs, rfl, rfl⟩ := exists_pairs all
  have same : (key ∘ fun p : { p : α × β // r p.1 p.2 } => p.1.1) = key' ∘ fun p => p.1.2 :=
    funext fun p => agree _ _ p.2
  rw [enumerate_map, enumerate_map, same, forall₂_map_left_iff, forall₂_map_right_iff]
  exact forall₂_same.mpr fun p _ => p.2

variable (mem : Memory) {n : Nat} (heap : Fin n → Obj n) {gap : Nat}

def Above (stack : List (Fin n)) (v : Value (BitVec 32)) : Prop :=
  ∀ o ∈ stack, ∀ v', Unfolds heap v' (.object o) → v.depth < v'.depth

variable {heap} {stack : List (Fin n)} {val : JsValue n}

theorem Above.not_mem {o : Fin n} (above : Above heap stack v) (unfolds : Unfolds heap v (.object o)) : o ∉ stack :=
  fun there => Nat.lt_irrefl _ (above o there v unfolds)

theorem Above.push {w : Value (BitVec 32)} {o : Fin n} (above : Above heap stack v)
    (unfolds : Unfolds heap v (.object o)) (smaller : w.depth < v.depth) : Above heap (o :: stack) w := by
  intro o' there v' unfolds'
  rcases mem_cons.mp there with rfl | outer
  · rwa [← unfolds_unique v unfolds unfolds']
  · exact Nat.lt_trans smaller (above o' outer v' unfolds')

/-- The events write this text and let the walk go on as long as it is not too long. -/
structure Writes (pre : Utf16) (events : List Event) (text : Utf16) : Prop where
  written : events.foldl behind pre = pre ++ text
  runs : (pre ++ text).length ≤ 2 ^ 30 - 1 → Runs pre events

section Texts

variable {pre text rest units : Utf16} {events later : List Event} {event : Event} {k : Nat}

theorem runs_append : Runs pre (events ++ later) ↔ Runs pre events ∧ Runs (events.foldl behind pre) later := by
  induction events generalizing pre with
  | nil => simp [Runs]
  | cons event events ih => simp [Runs, ih, and_assoc]

theorem Writes.append (first : Writes pre events text) (second : Writes (pre ++ text) later rest) :
    Writes pre (events ++ later) (text ++ rest) := by
  constructor
  · rw [foldl_append, first.written, second.written, append_assoc]
  · intro short
    rw [← append_assoc] at short
    rw [runs_append, first.written]
    refine ⟨first.runs ?_, second.runs short⟩
    rw [length_append] at short
    omega

theorem writes_nil : Writes pre [] [] := ⟨by simp, fun _ => trivial⟩

theorem writes_text : Writes pre [.text units] units := by
  refine ⟨rfl, fun short => ⟨?_, trivial⟩⟩
  rw [length_append] at short
  simp only [Harmless]
  omega

theorem Writes.text_cons (later : Writes (pre ++ units) events text) :
    Writes pre (.text units :: events) (units ++ text) := writes_text.append later

theorem writes_checked (units : Utf16) : Writes pre [.text units, .checked] units := by
  have checked : Writes (pre ++ units) [.checked] [] := by
    refine ⟨by simp [behind], fun short => ⟨?_, trivial⟩⟩
    rw [append_nil] at short
    simp only [Harmless]
    omega
  simpa using checked.text_cons

theorem Writes.made {isMade : Bool} (made : (pre ++ text).length ≤ 2 ^ 30 - 1 → isMade = true)
    (writes : Writes pre events text) : Writes pre (.made isMade :: events) text :=
  ⟨writes.written, fun short => ⟨made short, writes.runs short⟩⟩

theorem Writes.quoted {prop : LiveString} (within : (quote prop.units).length ≤ text.length)
    (writes : Writes pre events text) : Writes pre (quoted mem prop :: events) text := by
  refine writes.made fun short => ?_
  rcases toQuotedString_makes mem prop.toJsString prop.short with ⟨str, is, -⟩ | ⟨long, -⟩
  · rw [is]
    rfl
  · rw [length_append] at short
    omega

section Loops

variable {value : JsValue n → List Event} {sep sep1 : Utf16} {base : Nat}

/-- A child writes this text wherever it stands behind its separator. -/
def ChildWrites (value : JsValue n → List Event) (base : Nat) (val : JsValue n) (text : Utf16) : Prop :=
  ∀ pre : Utf16, base ≤ pre.length → Writes pre (value val) text

variable {vals : List (JsValue n)} {ts : List Utf16} {members : List (LiveString × JsValue n)}
  {ms : List (Utf16 × Utf16)} (long : base ≤ pre.length + sep.length)

include long

theorem writes_element {val : JsValue n} (child : ChildWrites value base (elementOf heap val) text)
    (later : Writes (pre ++ sep ++ text) events rest) :
    Writes pre (.text sep :: (value (elementOf heap val) ++ events)) (sep ++ text ++ rest) := by
  rw [append_assoc]
  exact ((child (pre ++ sep) (by rwa [length_append])).append later).text_cons

theorem writes_elements (nested : Forall₂ (fun val t => ChildWrites value base (elementOf heap val) t) vals ts) :
    Writes pre (elementEvents heap value sep false vals) ((ts.map (sep ++ ·)).flatMap fun t => 0x2c :: t) := by
  induction nested generalizing pre with
  | nil => exact writes_nil
  | cons head tail ih =>
    simp only [elementEvents, Bool.false_eq_true, if_false, map_cons, flatMap_cons, cons_append]
    refine Writes.text_cons (writes_element ?_ head (ih ?_))
    all_goals simp only [length_append]; omega

theorem writes_elements_first (nested : Forall₂ (fun val t => ChildWrites value base (elementOf heap val) t) vals ts) :
    Writes pre (elementEvents heap value sep true vals) (commas (ts.map (sep ++ ·))) := by
  cases nested with
  | nil => exact writes_nil
  | cons head tail =>
    rw [map_cons, commas_cons]
    refine writes_element long head (writes_elements ?_ tail)
    simp only [length_append]
    omega

def MemberWrites (heap : Fin n → Obj n) (value : JsValue n → List Event) (base : Nat) (m : LiveString × JsValue n)
    (e : Utf16 × Utf16) : Prop :=
  m.1.units = e.1 ∧ (jsJsonCheck heap m.2).isUndefined = false ∧ ChildWrites value base (jsJsonCheck heap m.2) e.2

omit long

def memberItem (sep sep1 : Utf16) (m : Utf16 × Utf16) : Utf16 :=
  sep ++ (quote m.1 ++ 0x3a :: (sep1 ++ m.2))

include long

theorem writes_member {m : LiveString × JsValue n} {e : Utf16 × Utf16}
    (child : MemberWrites heap value base m e) (later : Writes (pre ++ memberItem sep sep1 e) events rest) :
    Writes pre (quoted mem m.1 :: .text sep :: .text (quote m.1.units) :: .text [0x3a] :: .text sep1 ::
      (value (jsJsonCheck heap m.2) ++ events)) (memberItem sep sep1 e ++ rest) := by
  obtain ⟨key, -, child⟩ := child
  have inside := child (pre ++ sep ++ quote e.1 ++ [0x3a] ++ sep1) (by simp only [length_append]; omega)
  have after : Writes (pre ++ sep ++ quote e.1 ++ [0x3a] ++ sep1 ++ e.2) events rest := by
    simpa [memberItem] using later
  have written := (inside.append after).text_cons.text_cons.text_cons.text_cons
  rw [key]
  refine (Writes.quoted mem ?_ ?_)
  · rw [key]
    simp only [memberItem, length_append]
    omega
  · simpa [memberItem] using written

omit long in
theorem any_memberWrites (nested : Forall₂ (MemberWrites heap value base) members ms) :
    (members.any fun e => !(jsJsonCheck heap e.2).isUndefined) = !ms.isEmpty := by
  cases nested with
  | nil => rfl
  | cons head tail => simp [head.2.1]

theorem writes_members (nested : Forall₂ (MemberWrites heap value base) members ms) :
    Writes pre (memberEvents mem heap value sep sep1 true members)
      ((ms.map (memberItem sep sep1)).flatMap fun t => 0x2c :: t) := by
  induction nested generalizing pre with
  | nil => exact writes_nil
  | cons head tail ih =>
    simp only [memberEvents, head.2.1, Bool.false_eq_true, if_false, if_true, map_cons, flatMap_cons,
      cons_append]
    refine Writes.text_cons (writes_member mem ?_ head (ih ?_))
    all_goals simp only [length_append]; omega

theorem writes_members_first (nested : Forall₂ (MemberWrites heap value base) members ms) :
    Writes pre (memberEvents mem heap value sep sep1 false members) (commas (ms.map (memberItem sep sep1))) := by
  cases nested with
  | nil => exact writes_nil
  | cons head tail =>
    simp only [memberEvents, head.2.1, Bool.false_eq_true, if_false, nil_append, map_cons, commas_cons]
    refine writes_member mem long head (writes_members mem ?_ tail)
    simp only [length_append]
    omega

end Loops

theorem separators_isOk (room : Room gap k pre.length) (short : pre.length ≤ 2 ^ 30 - 1) :
    k + gap ≤ 2 ^ 30 - 1 ∧ (separators mem (spaces gap) (spaces (k + gap))).isOk = true := by
  have limit : k + gap < 2 ^ 30 - 1 := by
    by_contra beyond
    have long := room.long (not_lt.mp beyond)
    omega
  refine ⟨limit.le, ?_⟩
  unfold separators
  split
  · rcases concatString3_newline mem limit.le with ⟨str, is, -⟩ | ⟨long, -⟩
    · rw [is]
      rfl
    · rw [length_cons, length_replicate] at long
      omega
  · rfl

theorem writes_container {opening closing : BitVec 16} {items : List Utf16} {content : Bool}
    (room : Room gap k pre.length) (some : content = !items.isEmpty)
    (inside : Writes (pre ++ [opening]) events (commas items)) :
    Writes pre (containerEvents mem gap k opening closing content events)
      (opening :: (body gap k items ++ [closing])) := by
  subst some
  have line {pre : Utf16} : Writes pre (if !items.isEmpty ∧ gap ≠ 0 then
      [.text [0x0a], .text (spaces k).units] else []) (if !items.isEmpty then newline gap k else []) := by
    unfold newline
    by_cases empty : items.isEmpty
    · simpa [empty] using writes_nil
    · by_cases zero : gap = 0
      · simpa [empty, zero] using writes_nil
      · simp only [empty, zero, Bool.not_false, ne_eq, not_false_eq_true, and_self, if_true, if_false]
        exact writes_text.text_cons
  have closed {pre : Utf16} : Writes pre [.text [closing]] [closing] := writes_text
  have written := (inside.append (line.append closed)).text_cons
  have fits : (pre ++ opening :: (body gap k items ++ [closing])).length ≤ 2 ^ 30 - 1 → _ := fun short =>
    separators_isOk mem room (by rw [length_append] at short; omega)
  refine .made (fun short => decide_eq_true (fits short).1) (.made (fun short => (fits short).2) ?_)
  simpa [body_eq] using written

end Texts

theorem walk_writes {k : Nat} {pre : Utf16} (unfolds : Unfolds heap v val) (deep : v.depth ≤ frames)
    (above : Above heap stack v) (room : Room gap k pre.length) :
    Writes pre (walk mem heap gap frames stack k val) (v.listed.text gap k) := by
  induction frames generalizing v stack k pre val with
  | zero => exact absurd deep (Nat.not_le.mpr (Value.depth_pos _))
  | succ frames ih =>
    unfold walk
    cases v with
    | null =>
      cases unfolds
      exact writes_checked _
    | bool value =>
      cases unfolds
      cases value <;> exact writes_checked _
    | num i =>
      cases unfolds
      exact writes_checked _
    | str units =>
      obtain ⟨str, rfl, rfl⟩ := unfolds
      exact (writes_checked (quote str.units)).quoted mem le_rfl
    | arr vs =>
      obtain ⟨o, elements, rfl, is, all⟩ := unfolds_arr.mp unfolds
      have new := above.not_mem unfolds
      simp only [is, contains_iff_mem, new, if_false]
      have nested : Forall₂ (fun val t => ChildWrites (walk mem heap gap frames (o :: stack) (k + gap))
          (pre.length + 1 + (newline gap (k + gap)).length) (elementOf heap val) t) elements
          (vs.map fun v => v.listed.text gap (k + gap)) := by
        have inside := (forall₂_and_left (p := (· ∈ vs)) vs elements).mpr ⟨fun _ => id, all⟩
        refine forall₂_map_right_iff.mpr (Forall₂.flip (inside.imp fun v val both => ?_))
        obtain ⟨there, unfolds'⟩ := both
        intro pre' longer
        rw [elementOf_of_unfolds unfolds']
        exact ih unfolds' (Value.depth_arr_le.mp deep v there) (above.push unfolds (Value.depth_lt_arr there))
          (room.nested longer)
      have items : (vs.map Value.listed).map (fun v => elementText gap k (v.text gap)) =
          (vs.map fun v => v.listed.text gap (k + gap)).map (newline gap (k + gap) ++ ·) := by
        rw [map_map, map_map]
        rfl
      have content : elements.isEmpty = vs.isEmpty := by
        cases all <;> rfl
      rw [Value.listed_arr, text_arr, items]
      refine writes_container mem room (by simp [content]) (writes_elements_first ?_ nested)
      rw [length_append, length_singleton]
    | obj ms =>
      obtain ⟨o, members, rfl, is, all⟩ := unfolds_obj.mp unfolds
      have new := above.not_mem unfolds
      simp only [is, contains_iff_mem, new, if_false]
      have inside := (forall₂_and_left (p := (· ∈ ms)) ms members.entries).mpr ⟨fun _ => id, all⟩
      have listed := enumerate_forall₂ (fun m entry both => both.2.1) inside
      have nested : Forall₂ (MemberWrites heap (walk mem heap gap frames (o :: stack) (k + gap))
          (pre.length + 1 + (newline gap (k + gap)).length)) (enumerate (fun e => e.1.units) members.entries)
          ((enumerate Prod.fst ms).map fun m => (m.1, m.2.listed.text gap (k + gap))) := by
        refine forall₂_map_right_iff.mpr (Forall₂.flip (listed.imp fun m entry both => ?_))
        obtain ⟨there, key, unfolds'⟩ := both
        obtain ⟨same, defined⟩ := jsJsonCheck_of_unfolds unfolds'
        dsimp only [flip, MemberWrites]
        rw [same]
        refine ⟨key.symm, defined, fun pre' longer => ?_⟩
        exact ih unfolds' (Value.depth_obj_le.mp deep m there) (above.push unfolds (Value.depth_lt_obj there))
          (room.nested longer)
      have items : ((enumerate Prod.fst ms).map fun m => (m.1, m.2.listed)).map
          (fun m => memberText gap k (m.1, m.2.text gap)) =
          ((enumerate Prod.fst ms).map fun m => (m.1, m.2.listed.text gap (k + gap))).map
            (memberItem (newline gap (k + gap)) (blank gap)) := by
        rw [map_map, map_map]
        rfl
      rw [Value.listed_obj, text_obj, items]
      refine writes_container mem room ?_ (writes_members_first mem ?_ nested)
      · rw [isEmpty_map]
        exact any_memberWrites nested
      · rw [length_append, length_singleton]

theorem depth_of_walk {k : Nat} (unfolds : Unfolds heap v val) (above : Above heap stack v)
    (room : .noRoom ∉ walk mem heap gap frames stack k val) : v.depth ≤ frames := by
  have stops : Event.noRoom.Stops := trivial
  induction frames generalizing v stack k val with
  | zero => exact absurd (by simp [walk]) room
  | succ frames ih =>
    unfold walk at room
    cases v with
    | arr vs =>
      obtain ⟨o, elements, rfl, is, all⟩ := unfolds_arr.mp unfolds
      have new := above.not_mem unfolds
      simp only [is, contains_iff_mem, new, if_false, mem_containerEvents mem stops, mem_elementEvents stops] at room
      refine Value.depth_arr_le.mpr fun v there => ?_
      obtain ⟨val, inside, unfolds'⟩ := exists_of_forall₂ all v there
      refine ih (k := k + gap) unfolds' (above.push unfolds (Value.depth_lt_arr there)) fun none =>
        room ⟨val, inside, ?_⟩
      rwa [elementOf_of_unfolds unfolds']
    | obj ms =>
      obtain ⟨o, members, rfl, is, all⟩ := unfolds_obj.mp unfolds
      have new := above.not_mem unfolds
      simp only [is, contains_iff_mem, new, if_false, mem_containerEvents mem stops, mem_memberEvents mem stops] at room
      refine Value.depth_obj_le.mpr fun m there => ?_
      obtain ⟨entry, inside, -, unfolds'⟩ := exists_of_forall₂ all m there
      obtain ⟨same, defined⟩ := jsJsonCheck_of_unfolds unfolds'
      refine ih (k := k + gap) unfolds' (above.push unfolds (Value.depth_lt_obj there)) fun none =>
        room ⟨entry, ?_, ?_, ?_⟩
      · exact (enumerate_perm _ members.entries).mem_iff.mpr inside
      · rwa [same]
      · rwa [same]
    | _ => exact Nat.le_add_left 1 frames

end Writing

end Json
