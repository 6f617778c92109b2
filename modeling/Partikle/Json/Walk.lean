import Partikle.Json.Write
import Mathlib.Logic.Relation

/-!
Circular references. What `JSON.stringify` meets in a graph of objects is a list of events, in the order of its walk,
and a circular reference is reported exactly when the first event that ends the walk is an object inside itself.
-/

namespace Json

open Text Strings StringBuffer Relation List

section Graph

variable {n : Nat} (heap : Fin n → Obj n)

def Obj.children : Obj n → List (JsValue n)
  | .array elements => elements
  | .plain members => members.entries.map Prod.snd
  | _ => []

def Edge (o o' : Fin n) : Prop := .object o' ∈ (heap o).children

def Cyclic (val : JsValue n) : Prop :=
  ∃ root o, val = .object root ∧ ReflTransGen (Edge heap) root o ∧ TransGen (Edge heap) o o

variable {heap} {val : JsValue n} {o : Fin n}

theorem object_of_jsJsonCheck (is : jsJsonCheck heap val = .object o) : val = .object o := by
  unfold jsJsonCheck at is
  split at is
  · split at is
    · cases is
    · exact is
  · cases is
  · exact is

theorem object_of_elementOf (is : elementOf heap val = .object o) : val = .object o := by
  unfold elementOf at is
  split at is
  · cases is
  · exact object_of_jsJsonCheck is

end Graph

def Outcome.isOk {α : Type} : Outcome α → Bool
  | some (.ok _) => true
  | _ => false

section Walk

/-- `made` says whether a string of its own could be made, and at `checked` the status of the buffer is looked at. -/
inductive Event where
  | text (units : Utf16)
  | checked
  | made (isMade : Bool)
  | bigInt
  | cycle
  | noRoom

def gapOf (space : Int) : Nat := (min (max space 0) 10).toNat

variable (mem : Memory) {n : Nat} (heap : Fin n → Obj n) (gap : Nat)

def quoted (str : LiveString) : Event := .made (ofString (toQuotedString mem str.toJsString)).isOk

def primitiveEvents : Primitive → List Event
  | .string str => [quoted mem str, .text (quote str.units), .checked]
  | .float isFinite text => [.text (if isFinite then text.toJsString else nullString).units, .checked]
  | .int i => [.text (intText i), .checked]
  | .bool b => [.text (boolText b).units, .checked]
  | .bigInt => [.bigInt]

section Loops

variable (value : JsValue n → List Event) (sep sep1 : Utf16)

def elementEvents : Bool → List (JsValue n) → List Event
  | _, [] => []
  | first, val :: vals =>
    (if first then [] else [.text [0x2c]]) ++ .text sep :: (value (elementOf heap val) ++ elementEvents false vals)

def memberEvents : Bool → List (LiveString × JsValue n) → List Event
  | _, [] => []
  | hasContent, (prop, val) :: members =>
    if (jsJsonCheck heap val).isUndefined then memberEvents hasContent members
    else (if hasContent then [.text [0x2c]] else []) ++ quoted mem prop :: .text sep :: .text (quote prop.units) ::
      .text [0x3a] :: .text sep1 :: (value (jsJsonCheck heap val) ++ memberEvents true members)

end Loops

def containerEvents (k : Nat) (opening closing : BitVec 16) (content : Bool) (inside : List Event) : List Event :=
  .made (k + gap ≤ 2 ^ 30 - 1) :: .made (separators mem (spaces gap) (spaces (k + gap))).isOk :: .text [opening] ::
    (inside ++ ((if content ∧ gap ≠ 0 then [.text [0x0a], .text (spaces k).units] else []) ++ [.text [closing]]))

/-- From inside the objects of `stack`, with an indentation of `k` spaces. -/
def walk : Nat → List (Fin n) → Nat → JsValue n → List Event
  | 0, _, _, _ => [.noRoom]
  | frames + 1, stack, k, val =>
    match val with
    | .undefined | .symbol => []
    | .null => [.text nullString.units, .checked]
    | .primitive p => primitiveEvents mem p
    | .object o =>
      match heap o with
      | .boxed p => primitiveEvents mem p
      | .function => []
      | .array elements =>
        if stack.contains o then [.cycle]
        else containerEvents mem gap k 0x5b 0x5d (!elements.isEmpty)
          (elementEvents heap (walk frames (o :: stack) (k + gap)) (newline gap (k + gap)) true elements)
      | .plain members =>
        if stack.contains o then [.cycle]
        else
          let listed := enumerate (fun e => e.1.units) members.entries
          containerEvents mem gap k 0x7b 0x7d (listed.any fun e => !(jsJsonCheck heap e.2).isUndefined)
            (memberEvents mem heap (walk frames (o :: stack) (k + gap)) (newline gap (k + gap))
              (blank gap) false listed)

/-- The walk goes on behind the event. -/
def Harmless (pre : Utf16) : Event → Prop
  | .text units => ¬(pre.length < 2 ^ 30 ∧ pre.length + units.length = 2 ^ 31)
  | .checked => pre.length < 2 ^ 30
  | .made isMade => isMade = true
  | .bigInt | .cycle | .noRoom => False

def behind (pre : Utf16) : Event → Utf16
  | .text units => pre ++ units
  | _ => pre

def Runs : Utf16 → List Event → Prop
  | _, [] => True
  | pre, event :: events => Harmless pre event ∧ Runs (behind pre event) events

def CycleFirst : Utf16 → List Event → Prop
  | _, [] => False
  | pre, event :: events => event = .cycle ∨ Harmless pre event ∧ CycleFirst (behind pre event) events

end Walk

section Plays

variable {α β : Type}

/-- What is made of the events: the text of all of them, or what the first one makes that ends the walk. -/
def Plays (held : α → Utf16 → Prop) (out : Outcome α) : Utf16 → List Event → Prop
  | pre, [] => ∃ a, out = some (.ok a) ∧ held a pre
  | pre, event :: events => Harmless pre event ∧ Plays held out (behind pre event) events ∨
      ¬Harmless pre event ∧ out.isOk = false ∧ (out = some (.error .circularReference) ↔ event = .cycle)

variable {held : α → Utf16 → Prop} {held' : β → Utf16 → Prop} {out : Outcome α}
  {pre : Utf16} {events : List Event}

theorem Plays.circular (plays : Plays held out pre events) :
    out = some (.error .circularReference) ↔ CycleFirst pre events := by
  induction events generalizing pre with
  | nil =>
    obtain ⟨a, rfl, -⟩ := plays
    simp [CycleFirst]
  | cons event events ih =>
    rcases plays with ⟨harmless, plays⟩ | ⟨ends, -, circular⟩
    · have other : event ≠ .cycle := by
        rintro rfl
        exact harmless
      rw [CycleFirst, ih plays]
      simp [other, harmless]
    · rw [CycleFirst, circular]
      simp [ends]

theorem Plays.runs (plays : Plays held out pre events) (runs : Runs pre events) :
    ∃ a, out = some (.ok a) ∧ held a (events.foldl behind pre) := by
  induction events generalizing pre with
  | nil => exact plays
  | cons event events ih =>
    rcases plays with ⟨-, plays⟩ | ⟨ends, -⟩
    · exact ih plays runs.2
    · exact absurd runs.1 ends

theorem Plays.runs_of_ok {a : α} (plays : Plays held out pre events) (ok : out = some (.ok a)) : Runs pre events := by
  induction events generalizing pre with
  | nil => trivial
  | cons event events ih =>
    rcases plays with ⟨harmless, plays⟩ | ⟨-, failed, -⟩
    · exact ⟨harmless, ih plays⟩
    · rw [ok] at failed
      cases failed

theorem Plays.bind {f : α → Outcome β} {later : List Event} (plays : Plays held out pre events)
    (after : ∀ a, held a (events.foldl behind pre) → Plays held' (f a) (events.foldl behind pre) later) :
    Plays held' (out.bind f) pre (events ++ later) := by
  induction events generalizing pre with
  | nil =>
    obtain ⟨a, rfl, here⟩ := plays
    exact after a here
  | cons event events ih =>
    rcases plays with ⟨harmless, plays⟩ | ⟨ends, failed, circular⟩
    · exact .inl ⟨harmless, ih plays after⟩
    · refine .inr ⟨ends, ?_, ?_⟩
      all_goals rcases out with _ | _ | _ <;> simp_all [Outcome.bind, Outcome.isOk]

theorem plays_ok {a : α} (here : held a pre) : Plays held (some (.ok a)) pre [] := ⟨a, rfl, here⟩

theorem plays_made {f : α → Outcome β} (other : out ≠ some (.error .circularReference))
    (after : ∀ a, out = some (.ok a) → Plays held' (f a) pre events) :
    Plays held' (out.bind f) pre (.made out.isOk :: events) := by
  rcases out with _ | _ | a
  · exact .inr ⟨nofun, rfl, nofun, nofun⟩
  · refine .inr ⟨nofun, rfl, fun same => ?_, nofun⟩
    cases same
    exact absurd rfl other
  · exact .inl ⟨rfl, after a rfl⟩

theorem ofString_ne_circular (r : Option (Except Exception α)) : ofString r ≠ some (.error .circularReference) := by
  rcases r with _ | _ | _ <;> simp [ofString, Except.mapError]

variable (mem : Memory) {b : StringBuffer} {str : JsString}

theorem plays_putc8 (given : b.Given pre) (c : Nat) (small : c < 0x100) :
    Plays Given (ofBuffer (b.putc8 mem c)) pre [.text [.ofNat 16 c]] := by
  obtain ⟨b', put, given'⟩ := putc8_tracks mem (given_tracks mem) given small
  refine .inl ⟨?_, b', by rw [put]; rfl, given'⟩
  simp only [Harmless, length_singleton]
  omega

theorem plays_concatValue (given : b.Given pre) (printable : Printable str) :
    Plays Given (ofBuffer (b.concatValue mem str)) pre [.text str.units] := by
  have put := concatValue_given mem given printable.narrow printable.limit
  split at put
  · next wraps =>
      rw [put]
      exact .inr ⟨not_not.mpr wraps, rfl, nofun, nofun⟩
  · next fits =>
      obtain ⟨b', put, given'⟩ := put
      exact .inl ⟨fits, b', by rw [put]; rfl, given'⟩

theorem plays_checkStatus (given : b.Given pre) : Plays Given (checkStatus b) pre [.checked] := by
  unfold checkStatus
  by_cases short : pre.length ≤ 2 ^ 30 - 1
  · have opened : b.Open pre := by rwa [Given, if_pos short] at given
    obtain ⟨size, -, holds⟩ := opened.room
    rw [holds.good]
    exact .inl ⟨by simp only [Harmless]; omega, b, rfl, given⟩
  · have failed : b.Failed := by rwa [Given, if_neg short] at given
    obtain ⟨error, status⟩ := Option.isSome_iff_exists.mp failed.2.2
    rw [status]
    exact .inr ⟨by simp only [Harmless]; omega, rfl, by simp⟩

theorem plays_concatValueFree (given : b.Given pre) (printable : Printable str) :
    Plays Given (concatValueFree mem b str) pre [.text str.units, .checked] :=
  (plays_concatValue mem given printable).bind fun _ given' => plays_checkStatus given'

theorem printable_live (str : LiveString) : Printable str.toJsString := by
  have short := str.short
  refine ⟨fun narrow => ?_, by omega⟩
  simpa [isWide] using str.narrow narrow

theorem plays_quoted {held : α → Utf16 → Prop} {f : JsString → Outcome α} (prop : LiveString)
    (after : ∀ str : JsString, str.units = quote prop.units → Printable str → Plays held (f str) pre events) :
    Plays held ((ofString (toQuotedString mem prop.toJsString)).bind f) pre (quoted mem prop :: events) := by
  refine plays_made (ofString_ne_circular _) fun str made => ?_
  rcases toQuotedString_makes mem prop.toJsString prop.short with ⟨str', is, units, narrow, limit⟩ | ⟨-, error, thrown⟩
  · rw [is] at made
    cases made
    exact after str units ⟨by rwa [units], by rwa [units]⟩
  · rw [thrown] at made
    cases made

theorem printable_null : Printable nullString := ⟨by decide, by decide⟩

theorem plays_primitive (given : b.Given pre) (p : Primitive) :
    Plays Given (concatPrimitive mem b p) pre (primitiveEvents mem p) := by
  cases p with
  | string str =>
    refine plays_quoted mem str fun quoted is printable => ?_
    rw [← is]
    exact plays_concatValueFree mem given printable
  | float isFinite text =>
    cases isFinite with
    | false => exact plays_concatValueFree mem given printable_null
    | true => exact plays_concatValueFree mem given (printable_live text)
  | int i =>
    have short := length_intText i
    exact plays_concatValueFree mem given ⟨fun _ => isWide_intText i, by simp only; omega⟩
  | bool value => exact plays_concatValueFree mem given (by cases value <;> exact ⟨by decide, by decide⟩)
  | bigInt => exact .inr ⟨id, rfl, nofun, nofun⟩

end Plays

section Loops

variable (mem : Memory) {n : Nat} (heap : Fin n → Obj n) {gap k : Nat} {pre : Utf16} {b : StringBuffer}
  {value : JsValue n → StringBuffer → Outcome StringBuffer} {events : JsValue n → List Event} {sep sep1 : JsString}
  (nested : ∀ val pre b, b.Given pre → Plays Given (value val b) pre (events val)) (printable : Printable sep)

theorem plays_comma (given : b.Given pre) (comma : Bool) :
    Plays Given (ofBuffer (if comma then b.putc8 mem 0x2c else some b)) pre (if comma then [.text [0x2c]] else []) := by
  cases comma with
  | false => exact plays_ok given
  | true => exact plays_putc8 mem given 0x2c (by decide)

include nested printable

theorem writeElements_plays (first : Bool) (vals : List (JsValue n)) (given : b.Given pre) :
    Plays Given (writeElements mem heap value sep first vals b) pre
      (elementEvents heap events sep.units first vals) := by
  induction vals generalizing first pre b with
  | nil => exact plays_ok given
  | cons val vals ih =>
    have comma := plays_comma mem given (!first)
    simp only [Bool.not_eq_true', ← Bool.not_eq_true, ite_not] at comma
    exact comma.bind fun _ given => (plays_concatValue mem given printable).bind fun _ given =>
      (nested _ _ _ given).bind fun _ given => ih false given

theorem writeMembers_plays (printable1 : Printable sep1) (hasContent : Bool) (members : List (LiveString × JsValue n))
    (given : b.Given pre) : Plays (fun r units => r.1 = (hasContent || members.any fun e =>
        !(jsJsonCheck heap e.2).isUndefined) ∧ r.2.Given units)
      (writeMembers mem heap value sep sep1 hasContent members b) pre
      (memberEvents mem heap events sep.units sep1.units hasContent members) := by
  induction members generalizing hasContent pre b with
  | nil => exact plays_ok ⟨by simp, given⟩
  | cons m members ih =>
    obtain ⟨prop, val⟩ := m
    simp only [writeMembers, memberEvents]
    split
    · next skipped => simpa [skipped] using ih hasContent given
    · next defined =>
        refine (plays_comma mem given hasContent).bind fun _ given => plays_quoted mem prop fun str is quoted => ?_
        rw [← is]
        refine (plays_concatValue mem given printable).bind fun _ given =>
          (plays_concatValue mem given quoted).bind fun _ given =>
          (plays_putc8 mem given 0x3a (by decide)).bind fun _ given =>
          (plays_concatValue mem given printable1).bind fun _ given =>
          (nested _ _ _ given).bind fun _ given => ?_
        simpa [defined] using ih true given

end Loops

section Containers

variable (mem : Memory) {gap k : Nat} {pre : Utf16} {b : StringBuffer}

theorem plays_close (given : b.Given pre) (limit : k ≤ 2 ^ 30 - 1) (content : Bool) (c : Nat) (small : c < 0x100) :
    Plays Given ((ofBuffer (closeLine mem (spaces gap) (spaces k) content b)).bind fun b => ofBuffer (b.putc8 mem c))
      pre
      ((if content ∧ gap ≠ 0 then [.text [0x0a], .text (spaces k).units] else []) ++ [.text [.ofNat 16 c]]) := by
  have line : Plays Given (ofBuffer (closeLine mem (spaces gap) (spaces k) content b)) pre
      (if content ∧ gap ≠ 0 then [.text [0x0a], .text (spaces k).units] else []) := by
    simp only [closeLine, spaces_units_ne]
    split
    · rw [ofBuffer_bind]
      have long : (spaces k).units.length ≤ 2 ^ 30 + 1 := by
        rw [spaces, length_replicate]
        omega
      exact (plays_putc8 mem given 0x0a (by decide)).bind fun _ given =>
        plays_concatValue mem given ⟨fun _ => isWide_replicate k, long⟩
    · exact plays_ok given
  exact line.bind fun _ given => plays_putc8 mem given c small

theorem separators_ok {sep sep1 : JsString} (limit : k ≤ 2 ^ 30 - 1)
    (made : separators mem (spaces gap) (spaces k) = some (.ok (sep, sep1))) :
    (sep.units = newline gap k ∧ sep1.units = blank gap) ∧ Printable sep ∧ Printable sep1 := by
  unfold separators at made
  unfold newline blank
  split at made
  · next some =>
      obtain ⟨str, first, same⟩ := Outcome.bind_eq_ok.mp made
      cases same
      have none := spaces_units_ne.mp some
      rw [if_neg none, if_neg none]
      rcases concatString3_newline mem limit with ⟨str', is, units, narrow, limit⟩ | ⟨-, error, thrown⟩
      · rw [is] at first
        cases first
        exact ⟨⟨units, rfl⟩, ⟨by rwa [units], by rwa [units]⟩, fun _ => rfl, by simp⟩
      · rw [thrown] at first
        cases first
  · next none =>
      cases made
      rw [spaces_units_ne, not_not] at none
      rw [if_pos none, if_pos none]
      exact ⟨⟨rfl, rfl⟩, ⟨fun _ => rfl, by simp⟩, fun _ => rfl, by simp⟩

theorem separators_ne_circular (gap indent1 : JsString) :
    separators mem gap indent1 ≠ some (.error .circularReference) := by
  unfold separators
  split
  · intro circular
    rcases Outcome.bind_eq_error.mp circular with thrown | ⟨sep, -, circular⟩
    · exact ofString_ne_circular _ thrown
    · cases circular
  · simp

theorem plays_separators {α : Type} {held : α → Utf16 → Prop}
    {f : JsString → JsString × JsString → Outcome α} {events : List Event} (limit : k ≤ 2 ^ 30 - 1)
    (after : k + gap ≤ 2 ^ 30 - 1 → ∀ sep sep1 : JsString, sep.units = newline gap (k + gap) → sep1.units = blank gap →
      Printable sep → Printable sep1 → Plays held (f (spaces (k + gap)) (sep, sep1)) pre events) :
    Plays held ((ofString (some (concatString mem (spaces k) (spaces gap)))).bind fun indent1 =>
        (separators mem (spaces gap) indent1).bind (f indent1)) pre
      (.made (k + gap ≤ 2 ^ 30 - 1) :: .made (separators mem (spaces gap) (spaces (k + gap))).isOk :: events) := by
  rcases concatString_spaces mem limit gap with ⟨made, fits⟩ | ⟨⟨error, thrown⟩, beyond⟩
  · rw [made]
    refine .inl ⟨decide_eq_true fits, plays_made (separators_ne_circular mem _ _) fun seps made => ?_⟩
    obtain ⟨⟨line, space⟩, printable, printable1⟩ := separators_ok mem fits made
    exact after fits seps.1 seps.2 line space printable printable1
  · rw [thrown]
    exact .inr ⟨by simpa [Harmless] using beyond, rfl, nofun, nofun⟩

end Containers

section Run

variable (mem : Memory) {n : Nat} (heap : Fin n → Obj n) {gap frames : Nat}

theorem jsJsonToStr_plays {k : Nat} {stack : List (Fin n)} {val : JsValue n} {pre : Utf16}
    {b : StringBuffer} (limit : k ≤ 2 ^ 30 - 1) (given : b.Given pre) :
    Plays Given (jsJsonToStr mem heap (spaces gap) frames stack (spaces k) val b) pre
      (walk mem heap gap frames stack k val) := by
  induction frames generalizing k stack val pre b with
  | zero => exact .inr ⟨id, rfl, nofun, nofun⟩
  | succ frames ih =>
    unfold walk jsJsonToStr toStrStep
    cases val with
    | undefined | symbol => exact plays_ok given
    | null => exact plays_concatValueFree mem given printable_null
    | primitive p => exact plays_primitive mem given p
    | object o =>
      have nested (fits : k + gap ≤ 2 ^ 30 - 1) (val pre b) (given : b.Given pre) :
          Plays Given (jsJsonToStr mem heap (spaces gap) frames (o :: stack) (spaces (k + gap)) val b) pre
            (walk mem heap gap frames (o :: stack) (k + gap) val) := ih fits given
      cases is : heap o with
      | function =>
        simp only [is]
        exact plays_ok given
      | boxed p =>
        simp only [is]
        exact plays_primitive mem given p
      | array elements =>
        simp only [is]
        split
        · exact .inr ⟨id, rfl, by simp⟩
        · refine plays_separators mem limit fun fits sep sep1 line space printable printable1 => ?_
          rw [← line]
          exact (plays_putc8 mem given 0x5b (by decide)).bind fun _ given =>
            (writeElements_plays mem heap (nested fits) printable true elements given).bind
              fun _ given => plays_close mem given limit _ 0x5d (by decide)
      | plain members =>
        simp only [is]
        split
        · exact .inr ⟨id, rfl, by simp⟩
        · refine plays_separators mem limit fun fits sep sep1 line space printable printable1 => ?_
          rw [← line, ← space]
          refine (plays_putc8 mem given 0x7b (by decide)).bind fun _ given =>
            (writeMembers_plays mem heap (nested fits) printable printable1 false _ given).bind fun r given => ?_
          obtain ⟨content, given⟩ := given
          rw [Bool.false_or] at content
          rw [← content]
          exact plays_close mem given limit _ 0x7d (by decide)

variable {heap} {stack : List (Fin n)} {val : JsValue n} {o : Fin n}

theorem cycle_of_cycleFirst {events : List Event} {pre : Utf16} (first : CycleFirst pre events) :
    .cycle ∈ events := by
  induction events generalizing pre with
  | nil => exact absurd first id
  | cons event events ih =>
    rcases first with rfl | ⟨-, later⟩
    · exact .head _
    · exact .tail _ (ih later)

theorem noRoom_of_runs {events : List Event} {pre : Utf16} (runs : Runs pre events) : .noRoom ∉ events := by
  induction events generalizing pre with
  | nil => exact not_mem_nil
  | cons event events ih =>
    intro there
    rcases mem_cons.mp there with rfl | later
    · exact runs.1
    · exact ih runs.2 later

/-- The walk does not go on behind such an event, whatever was written before. -/
def Event.Stops : Event → Prop
  | .bigInt | .cycle | .noRoom => True
  | _ => False

section Members

variable {value : JsValue n → List Event} {sep sep1 : Utf16} {event : Event} (stops : event.Stops)

include stops

theorem Event.Stops.ne_text (units : Utf16) : event ≠ .text units := by
  rintro rfl
  exact stops

theorem Event.Stops.ne_made (isMade : Bool) : event ≠ .made isMade := by
  rintro rfl
  exact stops

theorem mem_elementEvents {first : Bool} {vals : List (JsValue n)} :
    event ∈ elementEvents heap value sep first vals ↔ ∃ val ∈ vals, event ∈ value (elementOf heap val) := by
  induction vals generalizing first with
  | nil => simp [elementEvents]
  | cons val vals ih => cases first <;> simp [elementEvents, ih, stops.ne_text]

theorem mem_memberEvents {hasContent : Bool} {members : List (LiveString × JsValue n)} :
    event ∈ memberEvents mem heap value sep sep1 hasContent members ↔
      ∃ m ∈ members, (jsJsonCheck heap m.2).isUndefined = false ∧ event ∈ value (jsJsonCheck heap m.2) := by
  induction members generalizing hasContent with
  | nil => simp [memberEvents]
  | cons m members ih =>
    cases defined : (jsJsonCheck heap m.2).isUndefined <;> cases hasContent <;>
      simp [memberEvents, ih, quoted, stops.ne_text, stops.ne_made, defined]

theorem mem_containerEvents {k : Nat} {opening closing : BitVec 16} {content : Bool} {inside : List Event} :
    event ∈ containerEvents mem gap k opening closing content inside ↔ event ∈ inside := by
  unfold containerEvents
  split <;> simp [stops.ne_text, stops.ne_made]

end Members

theorem not_cycle_primitive (p : Primitive) : .cycle ∉ primitiveEvents mem p := by
  cases p <;> simp [primitiveEvents, quoted]

theorem cyclic_of_cycle {k : Nat} (path : ∀ s ∈ stack, ∀ o, val = .object o → TransGen (Edge heap) s o)
    (there : .cycle ∈ walk mem heap gap frames stack k val) : Cyclic heap val := by
  have stops : Event.cycle.Stops := trivial
  induction frames generalizing stack k val with
  | zero => simp [walk] at there
  | succ frames ih =>
    unfold walk at there
    cases val with
    | undefined | symbol | null => simp at there
    | primitive p => exact absurd there (not_cycle_primitive mem p)
    | object o =>
      have inside (child : JsValue n) (edge : ∀ c, child = .object c → Edge heap o c)
          (there : .cycle ∈ walk mem heap gap frames (o :: stack) (k + gap) child) : Cyclic heap (.object o) := by
        have cyclic : Cyclic heap child := by
          refine ih (fun s member c is => ?_) there
          rcases mem_cons.mp member with rfl | above
          · exact .single (edge c is)
          · exact (path s above o rfl).tail (edge c is)
        obtain ⟨root, o', is, reach, cycle⟩ := cyclic
        exact ⟨o, o', rfl, .head (edge root is) reach, cycle⟩
      have again (member : o ∈ stack) : Cyclic heap (.object o) := ⟨o, o, rfl, .refl, path o member o rfl⟩
      cases is : heap o with
      | function => simp [is] at there
      | boxed p =>
        simp only [is] at there
        exact absurd there (not_cycle_primitive mem p)
      | array elements =>
        simp only [is, contains_iff_mem] at there
        split at there
        · next member => exact again member
        · obtain ⟨child, member, there⟩ := (mem_elementEvents stops).mp ((mem_containerEvents mem stops).mp there)
          refine inside _ (fun c same => ?_) there
          rw [object_of_elementOf same] at member
          simpa [Edge, is, Obj.children] using member
      | plain members =>
        simp only [is, contains_iff_mem] at there
        split at there
        · next member => exact again member
        · obtain ⟨m, member, -, there⟩ :=
            (mem_memberEvents mem stops).mp ((mem_containerEvents mem stops).mp there)
          refine inside _ (fun c same => ?_) there
          have entry := (enumerate_perm (fun e => e.1.units) members.entries).mem_iff.mp member
          rw [Edge, is, ← object_of_jsJsonCheck same]
          exact mem_map_of_mem entry

theorem jsJsonStringify_circular (frames : Nat) (space : Int) (val : JsValue n) :
    jsJsonStringify mem heap frames space val = some (.error .circularReference) ↔
      CycleFirst [] (walk mem heap (gapOf space) frames [] 0 (jsJsonCheck heap val)) := by
  have start : (init mem 0).Given [] := init_given mem (show 0 < 2 ^ 30 by decide)
  unfold jsJsonStringify
  cases undefined : (jsJsonCheck heap val).isUndefined with
  | true =>
    have is : jsJsonCheck heap val = .undefined := by
      cases same : jsJsonCheck heap val <;> simp_all [JsValue.isUndefined]
    rw [is]
    cases frames <;> simp [walk, CycleFirst, Harmless]
  | false =>
    rw [← (jsJsonToStr_plays mem heap (by decide) start).circular]
    refine Outcome.bind_eq_error.trans (or_iff_left ?_)
    rintro ⟨b, -, thrown⟩
    rcases Outcome.bind_eq_error.mp thrown with thrown | ⟨str, -, thrown⟩
    · exact ofString_ne_circular _ thrown
    · cases thrown

end Run

end Json
