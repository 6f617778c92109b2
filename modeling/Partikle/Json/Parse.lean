import Partikle.Json.Scan

/-!
`JSON.parse` without a reviver. The stack has room for a number of nested calls of
`json_parse_value`; the number of bytes bounds the rounds of every loop.
-/

namespace Json

open Text Strings

/-- The properties of an object are in the order in which they were added. -/
inductive Value (Num : Type) where
  | null
  | bool (b : Bool)
  | num (x : Num)
  | str (units : Utf16)
  | arr (elements : List (Value Num))
  | obj (members : List (Utf16 × Value Num))

variable {Num : Type} (mem : Memory) (doubles : Doubles Num)

def define {α : Type} (members : List (Utf16 × α)) (key : Utf16) (v : α) :
    List (Utf16 × α) :=
  match members with
  | [] => [(key, v)]
  | member :: rest => if member.1 = key then (key, v) :: rest else member :: define rest key v

section Values

variable (next : List Nat → Result (State Num)) (value : State Num → Result (Value Num × State Num))

def Token.isChar (c : Nat) : Token Num → Bool
  | .char c' => c' == c
  | _ => false

def jsonParseExpect (s : State Num) (tok : Nat) : Result (State Num) :=
  if s.1.isChar tok then next s.2 else some (.error (.expecting tok))

def parseElements : Nat → List (Value Num) → State Num → Result (List (Value Num) × State Num)
  | 0, _, _ => none
  | fuel + 1, elements, s =>
    (value s).bind fun (v, s) =>
      if s.1.isChar 0x2c then (next s.2).bind fun s => parseElements fuel (elements ++ [v]) s
      else some (.ok (elements ++ [v], s))

def parseMembers : Nat → List (Utf16 × Value Num) → State Num →
    Result (List (Utf16 × Value Num) × State Num)
  | 0, _, _ => none
  | fuel + 1, members, s =>
    match s.1 with
    | .string key =>
      (next s.2).bind fun s =>
        (jsonParseExpect next s 0x3a).bind fun s =>
          (value s).bind fun (v, s) =>
            if s.1.isChar 0x2c then (next s.2).bind fun s => parseMembers fuel (define members key v) s
            else some (.ok (define members key v, s))
    | _ => some (.error .expectingPropertyName)

def parseArray (fuel : Nat) (s : State Num) : Result (List (Value Num) × State Num) :=
  if s.1.isChar 0x5d then some (.ok ([], s)) else parseElements next value fuel [] s

def parseObject (fuel : Nat) (s : State Num) : Result (List (Utf16 × Value Num) × State Num) :=
  if s.1.isChar 0x7d then some (.ok ([], s)) else parseMembers next value fuel [] s

def parseStep (fuel : Nat) (s : State Num) : Result (Value Num × State Num) :=
  match s.1 with
  | .char c =>
    if c = 0x7b then
      (next s.2).bind fun s =>
        (parseObject next value fuel s).bind fun (members, s) =>
          (jsonParseExpect next s 0x7d).bind fun s => some (.ok (.obj members, s))
    else if c = 0x5b then
      (next s.2).bind fun s =>
        (parseArray next value fuel s).bind fun (elements, s) =>
          (jsonParseExpect next s 0x5d).bind fun s => some (.ok (.arr elements, s))
    else some (.error .unexpectedToken)
  | .string units => (next s.2).bind fun s => some (.ok (.str units, s))
  | .number x => (next s.2).bind fun s => some (.ok (.num x, s))
  | .ident name =>
    if name = [0x66, 0x61, 0x6c, 0x73, 0x65] then (next s.2).bind fun s => some (.ok (.bool false, s))
    else if name = [0x74, 0x72, 0x75, 0x65] then (next s.2).bind fun s => some (.ok (.bool true, s))
    else if name = [0x6e, 0x75, 0x6c, 0x6c] then (next s.2).bind fun s => some (.ok (.null, s))
    else some (.error .unexpectedToken)
  | .eof => some (.error .endOfInput)

end Values

def jsonParseValue (fuel : Nat) : Nat → State Num → Result (Value Num × State Num)
  | 0 => parseStep (fun _ => some (.error .stackOverflow)) (fun _ => some (.error .stackOverflow)) fuel
  | stack + 1 => parseStep (jsonNextToken mem doubles) (jsonParseValue fuel stack) fuel

def jsParseJson2 (stack : Nat) (buf : List Nat) : Result (Value Num) :=
  (jsonNextToken mem doubles buf).bind fun s =>
    (jsonParseValue mem doubles (buf.length + 1) stack s).bind fun (v, s) =>
      match s.1 with
      | .eof => some (.ok v)
      | _ => some (.error .dataAtEnd)

def jsJsonParse (stack : Nat) (str : JsString) : Result (Value Num) :=
  match toCStringLen2 mem false str with
  | none => none
  | some (.error error) => some (.error (.exception error))
  | some (.ok buf) => jsParseJson2 mem doubles stack buf

end Json
