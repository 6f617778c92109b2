import Partikle.Json.Unfold

/-!
`JSON.parse` after `JSON.stringify`, and when a circular reference is reported.
-/

namespace Json

open Text Strings StringBuffer Relation List

section Depth

variable {Num : Type} {lex : Lexicon} {number : Utf16 → Num}

theorem mem_of_separated {α : Type} {item : Utf16 → α → Prop} {t : Utf16} {vs : List α}
    (separated : Separated item t vs) : ∀ v ∈ vs, ∃ t', item t' v := by
  induction separated with
  | one first => simpa using ⟨_, first⟩
  | cons first rest ih =>
    intro v there
    rcases mem_cons.mp there with rfl | later
    · exact ⟨_, first⟩
    · exact ih v later

theorem mem_define {α : Type} {members : List (Utf16 × α)} {key : Utf16} {v : α}
    {m : Utf16 × α} (there : m ∈ define members key v) : m ∈ members ∨ m.2 = v := by
  induction members with
  | nil =>
    rw [define, mem_singleton] at there
    exact .inr (by rw [there])
  | cons member rest ih =>
    rw [define] at there
    split at there
    · rcases mem_cons.mp there with rfl | later
      · exact .inr rfl
      · exact .inl (.tail _ later)
    · rcases mem_cons.mp there with rfl | later
      · exact .inl (by simp)
      · rcases ih later with old | new
        · exact .inl (.tail _ old)
        · exact .inr new

theorem mem_foldl_define {α : Type} {members acc : List (Utf16 × α)} {m : Utf16 × α}
    (there : m ∈ members.foldl (fun members member => define members member.1 member.2) acc) :
    m ∈ acc ∨ ∃ m' ∈ members, m.2 = m'.2 := by
  induction members generalizing acc with
  | nil => exact .inl there
  | cons member rest ih =>
    rcases ih there with defined | ⟨m', later, same⟩
    · rcases mem_define defined with old | new
      · exact .inl old
      · exact .inr ⟨member, by simp, new⟩
    · exact .inr ⟨m', .tail _ later, same⟩

theorem depth_of_nested {n : Nat} {t : Utf16} {v : Value Num} (nested : Nested lex number n t v) :
    v.depth ≤ n := by
  induction n generalizing t v with
  | zero => exact absurd nested id
  | succ n ih =>
    have one : 1 ≤ n + 1 := by omega
    cases nested with
    | emptyArr => exact Value.depth_arr_le.mpr (by simp)
    | arr items =>
      refine Value.depth_arr_le.mpr fun v there => ?_
      obtain ⟨t', w, body, w', -, nested, -⟩ := mem_of_separated items v there
      exact ih nested
    | emptyObj => exact Value.depth_obj_le.mpr (by simp)
    | obj items =>
      refine Value.depth_obj_le.mpr fun m there => ?_
      rcases mem_foldl_define there with none | ⟨m', inside, same⟩
      · cases none
      · obtain ⟨t', w, key, w', element, -, -, -, ⟨w₁, body, w₂, -, nested, -⟩, -⟩ :=
          mem_of_separated items m' inside
        rw [same]
        exact ih nested
    | _ => exact one

end Depth

section Trees

variable {Num : Type} (mem : Memory) (doubles : Doubles Num) {n : Nat} (heap : Fin n → Obj n)

def Value.json (space : Int) (v : Value (BitVec 32)) : Utf16 := v.listed.text (gapOf space) 0

variable {heap} {v : Value (BitVec 32)} {val : JsValue n} {space : Int}

theorem jsJsonStringify_tree (frames : Nat) (unfolds : Unfolds heap v val) (str : JsString) :
    jsJsonStringify mem heap frames space val = some (.ok (some str)) ↔
      v.depth ≤ frames ∧ (v.json space).length ≤ 2 ^ 30 - 1 ∧ str = ⟨isWide (v.json space), v.json space⟩ := by
  obtain ⟨same, defined⟩ := jsJsonCheck_of_unfolds unfolds
  have gap : (⟨false, replicate (min (max space 0) 10).toNat 0x20⟩ : JsString) = spaces (gapOf space) := rfl
  have start : (init mem 0).Given [] := init_given mem (show 0 < 2 ^ 30 by decide)
  unfold jsJsonStringify
  simp only [same, defined, gap, Bool.false_eq_true, if_false]
  change (jsJsonToStr mem heap (spaces (gapOf space)) frames [] (spaces 0) val _).bind _ = _ ↔ _
  have plays : Plays Given (jsJsonToStr mem heap (spaces (gapOf space)) frames [] (spaces 0) val (init mem 0)) []
      (walk mem heap (gapOf space) frames [] 0 val) := jsJsonToStr_plays mem heap (by decide) start
  have writes (deep : v.depth ≤ frames) : Writes [] (walk mem heap (gapOf space) frames [] 0 val) (v.json space) :=
    walk_writes mem unfolds deep (by intro o there; cases there)
      ⟨fun _ => rfl, by unfold gapOf; omega, by simp, by simp⟩
  constructor
  · intro returned
    obtain ⟨b, written, last⟩ := Outcome.bind_eq_ok.mp returned
    have runs := plays.runs_of_ok written
    have deep : v.depth ≤ frames := depth_of_walk mem unfolds (by intro o there; cases there) (noRoom_of_runs runs)
    refine ⟨deep, ?_⟩
    have given : b.Given (v.json space) := by
      obtain ⟨b', written', given⟩ := plays.runs runs
      rw [written] at written'
      cases written'
      rwa [(writes deep).written] at given
    obtain ⟨short, long⟩ := endString_given given
    by_cases fits : (v.json space).length ≤ 2 ^ 30 - 1
    · rw [short fits] at last
      cases last
      exact ⟨fits, rfl⟩
    · obtain ⟨error, thrown⟩ := long (by omega)
      rw [thrown] at last
      cases last
  · rintro ⟨deep, fits, rfl⟩
    obtain ⟨b, written, given⟩ := plays.runs ((writes deep).runs fits)
    rw [(writes deep).written, nil_append] at given
    refine Outcome.bind_eq_ok.mpr ⟨b, written, ?_⟩
    rw [(endString_given given).1 fits]
    rfl

/-- What comes back is the tree, with its keys in the same order of enumeration. -/
def RoundTrips (heap : Fin n → Obj n) (frames stack : Nat) (space : Int) (val : JsValue n)
    (v : Value (BitVec 32)) : Prop :=
  ∃ str v', jsJsonStringify mem heap frames space val = some (.ok (some str)) ∧
    jsJsonParse mem doubles stack str = some (.ok v') ∧ v'.listed = (v.map (ofInt doubles)).listed

theorem json_text (space : Int) (unfolds : Unfolds heap v val) {d : Nat} (deep : v.depth ≤ d) :
    JsonText ecma404 (numberOf doubles) d (v.json space) (v.listed.map (ofInt doubles)) := by
  have distinct := (distinct_of_unfolds v unfolds).listed
  have nested := text_nested doubles ((v.depth_listed_le d).mpr deep) distinct (gapOf space) 0
  exact ⟨[], _, [], ws_nil, nested, ws_nil, by simp [Value.json]⟩

theorem roundTrips_iff (frames stack : Nat) (space : Int) (unfolds : Unfolds heap v val) :
    RoundTrips mem doubles heap frames stack space val v ↔ v.depth ≤ frames ∧ v.depth ≤ stack ∧
      (v.json space).length ≤ 2 ^ 30 - 1 ∧ (isWide (v.json space) = true → 3 * (v.json space).length < 2 ^ 31) := by
  have listed : (v.listed.map (ofInt doubles)).listed = (v.map (ofInt doubles)).listed := by
    rw [Value.listed_map, Value.listed_listed, Value.listed_map]
  have live : ∀ fits : (v.json space).length ≤ 2 ^ 30 - 1, ∃ live : LiveString,
      live.toJsString = ⟨isWide (v.json space), v.json space⟩ := fun fits =>
    ⟨⟨⟨isWide (v.json space), v.json space⟩, fits, by simp [isWide]⟩, rfl⟩
  constructor
  · rintro ⟨str, v', written, parsed, -⟩
    obtain ⟨deep, fits, rfl⟩ := (jsJsonStringify_tree mem frames unfolds str).mp written
    obtain ⟨live, is⟩ := live fits
    rw [← is] at parsed
    obtain ⟨convertible, text⟩ := (jsJsonParse_eq_ok mem doubles live).mp parsed
    have units : live.units = v.json space := congrArg JsString.units is
    have ecma := json_text doubles space unfolds (Nat.le_refl v.depth)
    rw [← units] at ecma
    obtain ⟨-, -, ⟨w, body, w', -, nested, -⟩, -⟩ := ecma.surveyed passed_ecma
    have shallow := (depth_of_nested nested).trans (text.surveyed passed_engine).2.1
    rw [Value.depth_map_le, Value.depth_listed_le] at shallow
    refine ⟨deep, shallow, fits, fun wide => ?_⟩
    by_contra long
    refine convertible ⟨?_, ?_⟩
    · rwa [is]
    · rw [is]
      exact Nat.not_lt.mp long
  · rintro ⟨deep, shallow, fits, narrow⟩
    obtain ⟨live, is⟩ := live fits
    have units : live.units = v.json space := congrArg JsString.units is
    refine ⟨⟨isWide (v.json space), v.json space⟩, v.listed.map (ofInt doubles),
      (jsJsonStringify_tree mem frames unfolds _).mpr ⟨deep, fits, rfl⟩, ?_, listed⟩
    rw [← is]
    refine (jsJsonParse_eq_ok mem doubles live).mpr ⟨?_, ?_⟩
    · rintro ⟨wide, long⟩
      rw [is] at wide long
      exact Nat.not_lt.mpr long (narrow wide)
    · rw [units]
      exact (json_text doubles space unfolds shallow).engine doubles (fun _ _ => rfl) le_rfl

theorem circular_iff (heap : Fin n → Obj n) (frames : Nat) (space : Int) (val : JsValue n) :
    (jsJsonStringify mem heap frames space val = some (.error .circularReference) ↔ Cyclic heap val) ↔
      (Cyclic heap val → CycleFirst [] (walk mem heap (gapOf space) frames [] 0 (jsJsonCheck heap val))) := by
  rw [jsJsonStringify_circular]
  refine ⟨Iff.mpr, fun first => ⟨fun met => ?_, first⟩⟩
  obtain ⟨root, o, is, path, cycle⟩ := cyclic_of_cycle mem (by simp) (cycle_of_cycleFirst met)
  exact ⟨root, o, object_of_jsJsonCheck is, path, cycle⟩

/-- A tree comes back exactly when both stacks have room for it, its text is not longer than a string can be
and the bytes of a wide text can be asked for. A circular reference is reported exactly when an object that is
come to can be reached from itself, as long as nothing that the walk meets before it ends the walk: a big integer, a
string that is too long, or the end of the stack. -/
theorem stringify_parse_iff (heap : Fin n → Obj n) (frames stack : Nat) (space : Int) (val : JsValue n) :
    (∀ v, Unfolds heap v val → (RoundTrips mem doubles heap frames stack space val v ↔ v.depth ≤ frames ∧
      v.depth ≤ stack ∧ (v.json space).length ≤ 2 ^ 30 - 1 ∧
      (isWide (v.json space) = true → 3 * (v.json space).length < 2 ^ 31))) ∧
      ((jsJsonStringify mem heap frames space val = some (.error .circularReference) ↔ Cyclic heap val) ↔
      (Cyclic heap val → CycleFirst [] (walk mem heap (gapOf space) frames [] 0 (jsJsonCheck heap val)))) :=
  ⟨fun _ unfolds => roundTrips_iff mem doubles frames stack space unfolds, circular_iff mem heap frames space val⟩

/-- What `JSON.stringify` returns for a tree is JSON that denotes the tree, whatever the indentation. -/
theorem jsJsonStringify_writes_json {frames : Nat} {str : JsString} (unfolds : Unfolds heap v val)
    (written : jsJsonStringify mem heap frames space val = some (.ok (some str))) :
    JsonText ecma404 (numberOf doubles) v.depth str.units (v.listed.map (ofInt doubles)) := by
  obtain ⟨-, -, rfl⟩ := (jsJsonStringify_tree mem frames unfolds str).mp written
  exact json_text doubles space unfolds le_rfl

end Trees

section Inputs

/-- An array that holds one object twice. -/
def sharedHeap : Fin 2 → Obj 2
  | 0 => .array [.object (.last 1), .object (.last 1), .null]
  | 1 => .plain ⟨[(⟨⟨true, [0x62]⟩, by decide, nofun⟩, .primitive (.string ⟨⟨true, [0x78, 0x0a]⟩, by decide, nofun⟩)),
      (⟨⟨true, [0x32]⟩, by decide, nofun⟩, .primitive (.int 5))], by decide⟩

def sharedTree : Value (BitVec 32) :=
  let both := .obj [([0x62], .str [0x78, 0x0a]), ([0x32], .num 5)]
  .arr [both, both, .null]

theorem sharedTree_unfolds : Unfolds sharedHeap sharedTree (.object 0) := by
  have both : Unfolds sharedHeap (.obj [([0x62], .str [0x78, 0x0a]), ([0x32], .num 5)]) (.object 1) :=
    unfolds_obj.mpr ⟨1, _, rfl, rfl, .cons ⟨rfl, _, rfl, rfl⟩ (.cons ⟨rfl, rfl⟩ .nil)⟩
  exact unfolds_arr.mpr ⟨0, _, rfl, rfl, .cons both (.cons both (.cons rfl .nil))⟩

theorem sharedHeap_roundTrips : RoundTrips .all integers sharedHeap 3 3 1 (.object 0) sharedTree := by
  apply ((stringify_parse_iff .all integers sharedHeap 3 3 1 (.object 0)).1 _ sharedTree_unfolds).mpr
  have deep : sharedTree.depth ≤ 3 := by decide
  exact ⟨deep, deep, by decide +kernel, by decide +kernel⟩

def sharedText : Utf16 :=
  [0x5b, 0x0a, 0x20, 0x7b, 0x0a, 0x20, 0x20, 0x22, 0x32, 0x22, 0x3a, 0x20, 0x35, 0x2c, 0x0a, 0x20, 0x20, 0x22, 0x62,
    0x22, 0x3a, 0x20, 0x22, 0x78, 0x5c, 0x6e, 0x22, 0x0a, 0x20, 0x7d, 0x2c, 0x0a, 0x20, 0x7b, 0x0a, 0x20, 0x20,
    0x22, 0x32, 0x22, 0x3a, 0x20, 0x35, 0x2c, 0x0a, 0x20, 0x20, 0x22, 0x62, 0x22, 0x3a, 0x20, 0x22, 0x78, 0x5c,
    0x6e, 0x22, 0x0a, 0x20, 0x7d, 0x2c, 0x0a, 0x20, 0x6e, 0x75, 0x6c, 0x6c, 0x0a, 0x5d]

theorem jsJsonStringify_writes_json_shared : jsJsonStringify .all sharedHeap 3 1 (.object 0) =
      some (.ok (some ⟨false, sharedText⟩)) ∧
    JsonText ecma404 (numberOf integers) 3 sharedText
      (.arr [.obj [([0x32], .num 5), ([0x62], .str [0x78, 0x0a])], .obj [([0x32], .num 5), ([0x62], .str [0x78, 0x0a])],
        .null]) := by
  have text : sharedTree.json 1 = sharedText := by decide +kernel
  have written : jsJsonStringify .all sharedHeap 3 1 (.object 0) = some (.ok (some ⟨false, sharedText⟩)) :=
    (jsJsonStringify_tree .all 3 sharedTree_unfolds _).mpr ⟨by decide, by decide +kernel, by rw [text]; rfl⟩
  have value : sharedTree.listed.map (ofInt integers) = .arr [.obj [([0x32], .num 5), ([0x62], .str [0x78, 0x0a])],
      .obj [([0x32], .num 5), ([0x62], .str [0x78, 0x0a])], .null] := by with_unfolding_all rfl
  exact ⟨written, value ▸ jsJsonStringify_writes_json .all integers sharedTree_unfolds written⟩

def manyEuros : LiveString where
  isWideChar := true
  units := replicate 715827881 0x20AC
  short := by rw [length_replicate]; omega
  narrow := fun narrow => by cases narrow

theorem isWide_quote_replicate (k : Nat) : isWide (quote (replicate (k + 1) 0x20AC)) = true := by
  have first : nextChar false 0x20AC (replicate k 0x20AC) = (0x20AC, replicate k 0x20AC) :=
    nextChar_of_not_hi false (by decide) _
  have char : quotedChar 0x20AC = [0x20AC] := by decide
  rw [quote, replicate_succ, quotedChars, first]
  simp [isWide, char]

theorem not_roundTrips_of_wide {n : Nat} {heap : Fin n → Obj n} {frames stack : Nat} {str : LiveString}
    (wide : isWide (quote str.units) = true) (long : 715827881 ≤ str.units.length) :
    ¬RoundTrips .all integers heap frames stack 0 (.primitive (.string str)) (.str str.units) := by
  have unfolds : Unfolds heap (.str str.units) (.primitive (.string str)) := ⟨str, rfl, rfl⟩
  intro back
  obtain ⟨-, -, -, few⟩ := (roundTrips_iff .all integers frames stack 0 unfolds).mp back
  have length := length_quote str.units
  have json : (Value.str str.units).json 0 = quote str.units := rfl
  rw [json] at few
  have := few wide
  omega

theorem manyEuros_lost : Unfolds sharedHeap (.str manyEuros.units) (.primitive (.string manyEuros)) ∧
    ∀ frames stack, ¬RoundTrips .all integers sharedHeap frames stack 0 (.primitive (.string manyEuros))
      (.str manyEuros.units) := by
  refine ⟨⟨manyEuros, rfl, rfl⟩, fun frames stack => not_roundTrips_of_wide ?_ ?_⟩
  · exact isWide_quote_replicate 715827880
  · rw [manyEuros, length_replicate]

end Inputs

end Json
