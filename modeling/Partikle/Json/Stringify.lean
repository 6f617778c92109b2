import Partikle.Json.Tree

/-!
`JSON.stringify` without a replacer, on objects without getters and `toJSON` methods. The stack has
room for a number of nested calls of `js_json_to_str`, which does not check that there is any.
-/

namespace Json

open Text Strings

section Heap

/-- A finite number is written as the string that it is converted to. -/
inductive Primitive where
  | bool (b : Bool)
  | int (i : BitVec 32)
  | float (isFinite : Bool) (text : LiveString)
  | string (str : LiveString)
  | bigInt

inductive JsValue (n : Nat) where
  | undefined
  | null
  | symbol
  | primitive (p : Primitive)
  | object (o : Fin n)

/-- The enumerable properties of an object with their values, as they were added. -/
structure Members (n : Nat) where
  entries : List (LiveString × JsValue n)
  nodup : (entries.map fun e => e.1.units).Nodup

inductive Obj (n : Nat) where
  | function
  | boxed (p : Primitive)
  | array (elements : List (JsValue n))
  | plain (members : Members n)

def JsValue.isUndefined {n : Nat} : JsValue n → Bool
  | .undefined => true
  | _ => false

end Heap

inductive StringifyError where
  | circularReference
  | bigInt
  | exception (error : Exception)
deriving DecidableEq

abbrev Outcome (α : Type) := Option (Except StringifyError α)

section Outcomes

variable {α β : Type}

def Outcome.bind : Outcome α → (α → Outcome β) → Outcome β
  | none, _ => none
  | some (.error error), _ => some (.error error)
  | some (.ok value), next => next value

variable {r : Outcome α} {f : α → Outcome β}

theorem Outcome.bind_eq_ok {b : β} : r.bind f = some (.ok b) ↔ ∃ a, r = some (.ok a) ∧ f a = some (.ok b) := by
  unfold Outcome.bind
  split <;> simp

theorem Outcome.bind_eq_error {error : StringifyError} :
    r.bind f = some (.error error) ↔ r = some (.error error) ∨ ∃ a, r = some (.ok a) ∧ f a = some (.error error) := by
  unfold Outcome.bind
  split <;> simp

def ofBuffer (r : Option StringBuffer) : Outcome StringBuffer := r.map .ok

def ofString (r : Option (Except Exception α)) : Outcome α := r.map (Except.mapError .exception)

end Outcomes

section Program

variable (mem : Memory)

/-- `JS_ConcatString` of strings that are referred to from elsewhere. -/
def concatString (left right : JsString) : Except Exception JsString :=
  if right.len = 0 then .ok left
  else if left.len + right.len > 2 ^ 30 - 1 then .error .stringTooLong
  else
    let isWideChar := left.isWideChar || right.isWideChar
    match jsAllocString mem (left.len + right.len : Nat) isWideChar with
    | none => .error .outOfMemory
    | some _ => .ok ⟨isWideChar, left.units ++ right.units⟩

def concatString3 (str1 : List Nat) (str2 : JsString) (str3 : List Nat) : Option (Except Exception JsString) :=
  let b := StringBuffer.init2 mem (str1.length + str2.len + str3.length : Nat) str2.isWideChar
  if b.errorStatus.isSome then some b.endString
  else do
    let b ← b.write8 mem str1
    let b ← b.concat mem str2
    let b ← b.write8 mem str3
    some b.endString

def checkStatus (b : StringBuffer) : Outcome StringBuffer :=
  match b.errorStatus with
  | some error => some (.error (.exception error))
  | none => some (.ok b)

def concatValueFree (b : StringBuffer) (str : JsString) : Outcome StringBuffer :=
  (ofBuffer (b.concatValue mem str)).bind checkStatus

def nullString : JsString := ⟨false, [0x6e, 0x75, 0x6c, 0x6c]⟩

def boolText (b : Bool) : JsString :=
  ⟨false, if b then [0x74, 0x72, 0x75, 0x65] else [0x66, 0x61, 0x6c, 0x73, 0x65]⟩

def concatPrimitive (b : StringBuffer) : Primitive → Outcome StringBuffer
  | .string str => (ofString (toQuotedString mem str.toJsString)).bind fun str => concatValueFree mem b str
  | .float isFinite text => concatValueFree mem b (if isFinite then text.toJsString else nullString)
  | .int i => concatValueFree mem b ⟨false, intText i⟩
  | .bool value => concatValueFree mem b (boolText value)
  | .bigInt => some (.error .bigInt)

variable {n : Nat} (heap : Fin n → Obj n)

def jsJsonCheck : JsValue n → JsValue n
  | .object o =>
    match heap o with
    | .function => .undefined
    | _ => .object o
  | .symbol => .undefined
  | val => val

def elementOf (val : JsValue n) : JsValue n :=
  if (jsJsonCheck heap val).isUndefined then .null else jsJsonCheck heap val

section Loops

variable (value : JsValue n → StringBuffer → Outcome StringBuffer)

def writeElements (sep : JsString) : Bool → List (JsValue n) → StringBuffer → Outcome StringBuffer
  | _, [], b => some (.ok b)
  | first, val :: vals, b =>
    (ofBuffer (if first then some b else b.putc8 mem 0x2c)).bind fun b =>
      (ofBuffer (b.concatValue mem sep)).bind fun b =>
        (value (elementOf heap val) b).bind fun b => writeElements sep false vals b

def writeMembers (sep sep1 : JsString) :
    Bool → List (LiveString × JsValue n) → StringBuffer → Outcome (Bool × StringBuffer)
  | hasContent, [], b => some (.ok (hasContent, b))
  | hasContent, (prop, val) :: members, b =>
    if (jsJsonCheck heap val).isUndefined then writeMembers sep sep1 hasContent members b
    else
      (ofBuffer (if hasContent then b.putc8 mem 0x2c else some b)).bind fun b =>
        (ofString (toQuotedString mem prop.toJsString)).bind fun prop =>
          (ofBuffer (b.concatValue mem sep)).bind fun b =>
            (ofBuffer (b.concatValue mem prop)).bind fun b =>
              (ofBuffer (b.putc8 mem 0x3a)).bind fun b =>
                (ofBuffer (b.concatValue mem sep1)).bind fun b =>
                  (value (jsJsonCheck heap val) b).bind fun b => writeMembers sep sep1 true members b

end Loops

def separators (gap indent1 : JsString) : Outcome (JsString × JsString) :=
  if gap.units ≠ [] then
    (ofString (concatString3 mem [0x0a] indent1 [])).bind fun sep => some (.ok (sep, ⟨false, [0x20]⟩))
  else some (.ok (⟨false, []⟩, ⟨false, []⟩))

def closeLine (gap indent : JsString) (hasContent : Bool) (b : StringBuffer) : Option StringBuffer :=
  if hasContent ∧ gap.units ≠ [] then (b.putc8 mem 0x0a).bind fun b => b.concatValue mem indent else some b

section Objects

variable (value : JsString → JsValue n → StringBuffer → Outcome StringBuffer) (gap indent : JsString)

def writeArray (elements : List (JsValue n)) (b : StringBuffer) : Outcome StringBuffer :=
  (ofString (some (concatString mem indent gap))).bind fun indent1 =>
    (separators mem gap indent1).bind fun (sep, _) =>
      (ofBuffer (b.putc8 mem 0x5b)).bind fun b =>
        (writeElements mem heap (value indent1) sep true elements b).bind fun b =>
          (ofBuffer (closeLine mem gap indent (!elements.isEmpty) b)).bind fun b => ofBuffer (b.putc8 mem 0x5d)

def writeObject (members : List (LiveString × JsValue n)) (b : StringBuffer) : Outcome StringBuffer :=
  (ofString (some (concatString mem indent gap))).bind fun indent1 =>
    (separators mem gap indent1).bind fun (sep, sep1) =>
      (ofBuffer (b.putc8 mem 0x7b)).bind fun b =>
        (writeMembers mem heap (value indent1) sep sep1 false members b).bind fun (hasContent, b) =>
          (ofBuffer (closeLine mem gap indent hasContent b)).bind fun b => ofBuffer (b.putc8 mem 0x7d)

end Objects

/-- The body of `js_json_to_str`, with the function it calls for a nested value. It is not called for
`undefined` and functions. -/
def toStrStep (value : List (Fin n) → JsString → JsValue n → StringBuffer → Outcome StringBuffer)
    (gap : JsString) (stack : List (Fin n)) (indent : JsString) (val : JsValue n) (b : StringBuffer) :
    Outcome StringBuffer :=
  match val with
  | .undefined | .symbol => some (.ok b)
  | .null => concatValueFree mem b nullString
  | .primitive p => concatPrimitive mem b p
  | .object o =>
    match heap o with
    | .boxed p => concatPrimitive mem b p
    | .function => some (.ok b)
    | .array elements =>
      if stack.contains o then some (.error .circularReference)
      else writeArray mem heap (value (o :: stack)) gap indent elements b
    | .plain members =>
      if stack.contains o then some (.error .circularReference)
      else writeObject mem heap (value (o :: stack)) gap indent (enumerate (fun e => e.1.units) members.entries) b

def jsJsonToStr (gap : JsString) :
    Nat → List (Fin n) → JsString → JsValue n → StringBuffer → Outcome StringBuffer
  | 0 => fun _ _ _ _ => none
  | frames + 1 => toStrStep mem heap (jsJsonToStr gap frames) gap

/-- `space` is a number. -/
def jsJsonStringify (frames : Nat) (space : Int) (val : JsValue n) : Outcome (Option JsString) :=
  let gap : JsString := ⟨false, List.replicate (min (max space 0) 10).toNat 0x20⟩
  if (jsJsonCheck heap val).isUndefined then some (.ok none)
  else
    (jsJsonToStr mem heap gap frames [] ⟨false, []⟩ (jsJsonCheck heap val) (.init mem 0)).bind fun b =>
      (ofString (some b.endString)).bind fun str => some (.ok (some str))

end Program

end Json
