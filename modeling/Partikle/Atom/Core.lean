import Partikle.Lib.HashChain
import Partikle.Lib.Wrap
import Partikle.Strings
import Mathlib.Data.Nat.Bitwise

/-!
The atom table. An atom is a `JSString` whose address stands in `atom_array`; string
atoms and global symbols are also chained in `atom_hash`. Reading a freed string or a
slot without an atom, a failed assertion and exhausted loop fuel give `none`. Reference
counts are `int`s that wrap around.
-/

namespace Atoms

open Strings Wrap Function

abbrev Ptr := Nat

inductive AtomType
  | none
  | string
  | globalSymbol
  | symbol
deriving DecidableEq

inductive NewType
  | string
  | globalSymbol
  | symbol
  | privateName
deriving DecidableEq

def NewType.stored : NewType → AtomType
  | .string => .string
  | .globalSymbol => .globalSymbol
  | .symbol => .symbol
  | .privateName => .symbol

structure Cell where
  refCount : Int
  contents : JsString
  /-- What `js_malloc_usable_size` reports for the block. -/
  usableSize : Nat
  hash : BitVec 30
  atomType : AtomType
  hashNext : Nat
deriving DecidableEq

inductive Slot
  | atom (p : Ptr)
  | free (next : Nat)
deriving DecidableEq

structure Runtime where
  cell : Ptr → Option Cell
  atomArray : Nat → Slot
  atomHash : Nat → Nat
  atomHashSize : Nat
  atomCount : Int
  atomSize : Nat
  atomCountResize : Nat
  atomFreeIndex : Nat

def JS_ATOM_END : Nat := 227

def JS_ATOM_MAX : Nat := 2 ^ 30 - 1

def JS_STRING_LEN_MAX : Nat := 2 ^ 30 - 1

def sizeofJSString : Nat := 16

def atomIsConst (i : Nat) : Bool := i < JS_ATOM_END

def Runtime.setCell (rt : Runtime) (p : Ptr) (c : Cell) : Runtime :=
  { rt with cell := update rt.cell p (some c) }

def Runtime.freeCell (rt : Runtime) (p : Ptr) : Runtime := { rt with cell := update rt.cell p none }

def Runtime.ptrAt (rt : Runtime) (i : Nat) : Option Ptr :=
  if i < rt.atomSize then
    match rt.atomArray i with
    | .atom p => some p
    | .free _ => none
  else none

def Runtime.cellAt (rt : Runtime) (i : Nat) : Option Cell := (rt.ptrAt i).bind rt.cell

def AtomType.hashed : AtomType → Bool
  | .string => true
  | .globalSymbol => true
  | _ => false

def AtomType.seed : AtomType → BitVec 32
  | .none => 0
  | .string => 1
  | .globalSymbol => 2
  | .symbol => 3

def atomHashOf (type : AtomType) (contents : JsString) : BitVec 30 :=
  (hashString contents type.seed).setWidth 30

def bucketIn (size : Nat) (hash : BitVec 30) : Nat := hash.toNat &&& (size - 1)

def Runtime.chainFuel (rt : Runtime) : Nat := rt.atomSize + 1

def indexLoop (rt : Runtime) (p : Ptr) : Nat → Nat → Option Nat
  | 0, _ => none
  | fuel + 1, i => do
      let p1 ← rt.ptrAt i
      if p1 = p then some i
      else if i = 0 then none
      else do
        let c1 ← rt.cell p1
        indexLoop rt p fuel c1.hashNext

def jsGetAtomIndex (rt : Runtime) (p : Ptr) : Option Nat := do
  let c ← rt.cell p
  if c.atomType = .symbol then some c.hashNext
  else indexLoop rt p rt.chainFuel (rt.atomHash (bucketIn rt.atomHashSize c.hash))

def findLoop (rt : Runtime) (wanted : Cell → Bool) : Nat → Nat → Option (Option Nat)
  | 0, _ => none
  | fuel + 1, i =>
    if i = 0 then some none else do
      let c ← rt.cellAt i
      if wanted c then some (some i) else findLoop rt wanted fuel c.hashNext

def moveChain (size : Nat) : Nat → Nat → Runtime → (Nat → Nat) → Option (Runtime × (Nat → Nat))
  | 0, _, _, _ => none
  | fuel + 1, h, rt, newHash =>
    if h = 0 then some (rt, newHash) else do
      let p ← rt.ptrAt h
      let c ← rt.cell p
      let j := bucketIn size c.hash
      moveChain size fuel c.hashNext (rt.setCell p { c with hashNext := newHash j })
        (update newHash j h)

def moveChains (size : Nat) : List Nat → Runtime → (Nat → Nat) → Option (Runtime × (Nat → Nat))
  | [], rt, newHash => some (rt, newHash)
  | i :: rest, rt, newHash => do
      let (rt, newHash) ← moveChain size rt.chainFuel (rt.atomHash i) rt newHash
      moveChains size rest rt newHash

/-- `allocated` tells whether there is memory for the new table. -/
def jsResizeAtomHash (size : Nat) (allocated : Bool) (rt : Runtime) : Option Runtime :=
  if size &&& (size - 1) = 0 then
    if allocated then do
      let (rt, newHash) ← moveChains size (List.range rt.atomHashSize) rt fun _ => 0
      some { rt with atomHash := newHash, atomHashSize := size, atomCountResize := size * 2 }
    else some rt
  else none

def unlinkLoop (p : Ptr) (target : Nat) (rt : Runtime) : Nat → Nat → Option (Nat × Runtime)
  | 0, _ => none
  | fuel + 1, i =>
    if i = 0 then none else do
      let p0 ← rt.ptrAt i
      let c0 ← rt.cell p0
      let p1 ← rt.ptrAt c0.hashNext
      if p1 = p then some (c0.hashNext, rt.setCell p0 { c0 with hashNext := target })
      else unlinkLoop p target rt fuel c0.hashNext

def unlinkAtom (p : Ptr) (c : Cell) (rt : Runtime) : Option (Nat × Runtime) :=
  if c.atomType = .symbol then some (c.hashNext, rt) else do
    let h0 := bucketIn rt.atomHashSize c.hash
    let p1 ← rt.ptrAt (rt.atomHash h0)
    if p1 = p then
      some (rt.atomHash h0, { rt with atomHash := update rt.atomHash h0 c.hashNext })
    else unlinkLoop p c.hashNext rt rt.chainFuel (rt.atomHash h0)

def Runtime.freeSlot (rt : Runtime) (i : Nat) : Runtime :=
  { rt with
    atomArray := update rt.atomArray i (.free rt.atomFreeIndex)
    atomFreeIndex := i
    atomCount := rt.atomCount - 1 }

def jsFreeAtomStruct (p : Ptr) (rt : Runtime) : Option Runtime := do
  let c ← rt.cell p
  let (i, rt) ← unlinkAtom p c rt
  let rt := (rt.freeSlot i).freeCell p
  if 0 ≤ rt.atomCount then some rt else none

def jsFreeString (p : Ptr) (rt : Runtime) : Option Runtime := do
  let c ← rt.cell p
  let count := int32 (c.refCount - 1)
  let rt := rt.setCell p { c with refCount := count }
  if count ≤ 0 then
    if c.atomType = .none then some (rt.freeCell p) else jsFreeAtomStruct p rt
  else some rt

def jsFreeAtom (i : Nat) (rt : Runtime) : Option Runtime :=
  if atomIsConst i then some rt else do
    let p ← rt.ptrAt i
    let c ← rt.cell p
    let count := int32 (c.refCount - 1)
    let rt := rt.setCell p { c with refCount := count }
    if count > 0 then some rt else jsFreeAtomStruct p rt

def jsDupAtom (i : Nat) (rt : Runtime) : Option Runtime :=
  if atomIsConst i then some rt else do
    let p ← rt.ptrAt i
    let c ← rt.cell p
    some (rt.setCell p { c with refCount := int32 (c.refCount + 1) })

/-- The answers of the allocator during one call. A block is an address and its
usable size. -/
structure Memory where
  grow : Bool
  nullAtom : Option Ptr
  block : Option (Ptr × Nat)
  resize : Bool

/-- `max_int(211, rt->atom_size * 3 / 2)`, in `int` arithmetic. -/
def growSize (atomSize : Nat) : Nat := max 211 (((BitVec.ofNat 32 (atomSize * 3)).toInt.tdiv 2).toNat)

def emptySymbol (usableSize : Nat) : Cell where
  refCount := 1
  contents := ⟨true, []⟩
  usableSize := usableSize
  hash := 0
  atomType := .none
  hashNext := 0

def freeFrom (newSize i : Nat) : Slot := .free (if i = newSize - 1 then 0 else i + 1)

/-- Make room in `atom_array` if the free list is empty; `none` is a failure. -/
def growArray (mem : Memory) (rt : Runtime) : Option Runtime :=
  if rt.atomFreeIndex ≠ 0 then some rt else
    let newSize := growSize rt.atomSize
    if newSize > JS_ATOM_MAX ∨ mem.grow = false then none
    else if rt.atomSize = 0 then do
      let p ← mem.nullAtom
      some { rt.setCell p ⟨1, ⟨false, []⟩, 0, 0, .symbol, 0⟩ with
        atomArray := fun i => if i = 0 then .atom p else freeFrom newSize i
        atomCount := rt.atomCount + 1
        atomSize := newSize
        atomFreeIndex := 1 }
    else some { rt with
      atomArray := fun i => if i < rt.atomSize then rt.atomArray i else freeFrom newSize i
      atomSize := newSize
      atomFreeIndex := rt.atomSize }

def Runtime.fillSlot (rt : Runtime) (i next : Nat) (p : Ptr) : Runtime :=
  { rt with
    atomFreeIndex := next
    atomArray := update rt.atomArray i (.atom p)
    atomCount := rt.atomCount + 1 }

def installAtom (p : Ptr) (c : Cell) (hash : BitVec 30) (type : AtomType) (resize : Bool)
    (rt : Runtime) : Option (Nat × Runtime) :=
  let i := rt.atomFreeIndex
  if i < rt.atomSize then
    match rt.atomArray i with
    | .atom _ => none
    | .free next =>
      let h1 := bucketIn rt.atomHashSize hash
      let rt := rt.fillSlot i next p
      if type.hashed then do
        let rt := rt.setCell p { c with hash := hash, atomType := type, hashNext := rt.atomHash h1 }
        let rt := { rt with atomHash := update rt.atomHash h1 i }
        let rt ← if rt.atomCount ≥ rt.atomCountResize then
            jsResizeAtomHash (rt.atomHashSize * 2) resize rt
          else some rt
        some (i, rt)
      else some (i, rt.setCell p { c with hash := hash, atomType := type, hashNext := i })
  else none

def finishWith (i : Nat) (str : Option Ptr) (rt : Runtime) : Option (Nat × Runtime) :=
  match str with
  | none => some (i, rt)
  | some p => do
      let rt ← jsFreeString p rt
      some (i, rt)

def createAtom (str : Option Ptr) (hash : BitVec 30) (type : AtomType) (mem : Memory)
    (rt : Runtime) : Option (Nat × Runtime) :=
  match growArray mem rt with
  | none => finishWith 0 str rt
  | some rt =>
    match str with
    | none =>
      match mem.block with
      | none => some (0, rt)
      | some (p, usableSize) =>
        installAtom p (emptySymbol usableSize) hash type mem.resize
          (rt.setCell p (emptySymbol usableSize))
    | some q => do
        let c ← rt.cell q
        if c.atomType = .none then installAtom q c hash type mem.resize rt
        else
          match mem.block with
          | none => finishWith 0 str rt
          | some (p, usableSize) => do
              let copy : Cell := ⟨1, c.contents, usableSize, 0, .none, 0⟩
              let rt ← jsFreeString q (rt.setCell p copy)
              installAtom p copy hash type mem.resize rt

def sameAtom (hash : BitVec 30) (type : AtomType) (contents : JsString) (c : Cell) : Bool :=
  c.hash == hash && c.atomType == type && c.contents.units == contents.units

def newHashedAtom (p : Ptr) (type : AtomType) (mem : Memory) (rt : Runtime) : Option (Nat × Runtime) := do
  let c ← rt.cell p
  if c.atomType = type then do
    let i ← jsGetAtomIndex rt p
    if atomIsConst i then some (i, rt.setCell p { c with refCount := int32 (c.refCount - 1) })
    else some (i, rt)
  else do
    let hash := atomHashOf type c.contents
    let found ← findLoop rt (sameAtom hash type c.contents) rt.chainFuel
      (rt.atomHash (bucketIn rt.atomHashSize hash))
    match found with
    | some i => do
        let rt ← jsDupAtom i rt
        finishWith i (some p) rt
    | none => createAtom (some p) hash type mem rt

def jsNewAtom (str : Option Ptr) (type : NewType) (mem : Memory) (rt : Runtime) : Option (Nat × Runtime) :=
  match type, str with
  | .string, some p => newHashedAtom p .string mem rt
  | .globalSymbol, some p => newHashedAtom p .globalSymbol mem rt
  | .symbol, str => createAtom str 0 .symbol mem rt
  | .privateName, str => createAtom str 1 .symbol mem rt
  | _, none => none

/-- Whether `JS_ConcatStringInPlace` extends its first operand. In a wide string the
new length is doubled as an `int`, and an overflow is never found to fit. -/
def appendsInPlace (c1 c2 : Cell) : Bool :=
  let len := c1.contents.len + c2.contents.len
  c1.refCount == 1 &&
    if c1.contents.isWideChar then
      decide (len < 2 ^ 30) && decide (sizeofJSString + 2 * len ≤ c1.usableSize)
    else !c2.contents.isWideChar && decide (sizeofJSString + len + 1 ≤ c1.usableSize)

def jsConcatStringInPlace (p1 p2 : Ptr) (rt : Runtime) : Option (Bool × Runtime) := do
  let c1 ← rt.cell p1
  let c2 ← rt.cell p2
  if c2.contents.len = 0 then some (true, rt)
  else if appendsInPlace c1 c2 then
    let contents : JsString := ⟨c1.contents.isWideChar, c1.contents.units ++ c2.contents.units⟩
    some (true, rt.setCell p1 { c1 with contents := contents })
  else some (false, rt)

def concatContents (left right : JsString) : JsString :=
  ⟨left.isWideChar || right.isWideChar, left.units ++ right.units⟩

def jsConcatString1 (c1 c2 : Cell) (block : Option (Ptr × Nat)) (rt : Runtime) : Option Ptr × Runtime :=
  if c1.contents.len + c2.contents.len > JS_STRING_LEN_MAX then (none, rt) else
    match block with
    | none => (none, rt)
    | some (p, usableSize) =>
      (some p, rt.setCell p
        ⟨1, concatContents c1.contents c2.contents, usableSize, 0, .none, 0⟩)

def jsConcatString (p1 p2 : Ptr) (block : Option (Ptr × Nat)) (rt : Runtime) :
    Option (Option Ptr × Runtime) := do
  let (done, rt) ← jsConcatStringInPlace p1 p2 rt
  if done then do
    let rt ← jsFreeString p2 rt
    some (some p1, rt)
  else do
    let c1 ← rt.cell p1
    let c2 ← rt.cell p2
    let (result, rt) := jsConcatString1 c1 c2 block rt
    let rt ← jsFreeString p1 rt
    let rt ← jsFreeString p2 rt
    some (result, rt)

def jsDupString (p : Ptr) (rt : Runtime) : Option Runtime := do
  let c ← rt.cell p
  some (rt.setCell p { c with refCount := int32 (c.refCount + 1) })

/-- `OP_add_loc` for a local that holds the string `pv`: its new value, with `none`
for an exception. -/
def addLoc (pv op2 : Ptr) (block : Option (Ptr × Nat)) (rt : Runtime) : Option (Option Ptr × Runtime) := do
  let (done, rt) ← jsConcatStringInPlace pv op2 rt
  if done then do
    let rt ← jsFreeString op2 rt
    some (some pv, rt)
  else do
    let rt ← jsDupString pv rt
    match ← jsConcatString pv op2 block rt with
    | (none, rt) => some (none, rt)
    | (some result, rt) => do
        let rt ← jsFreeString pv rt
        some (some result, rt)

/-- `is_num_string`, for numbers that fit a tagged integer atom. -/
def isNumString (str : JsString) : Bool :=
  let digit := fun unit : BitVec 16 => decide (48 ≤ unit.toNat) && decide (unit.toNat ≤ 57)
  let value := str.units.foldl (fun n unit => n * 10 + (unit.toNat - 48)) 0
  match str.units with
  | [] => false
  | first :: rest =>
    decide (str.len ≤ 10) && str.units.all digit && (first.toNat != 48 || rest.isEmpty) &&
      decide (value < 2 ^ 31)

/-- `JS_NewAtomStr`. No index is a tagged integer, which uses no table entry. -/
def jsNewAtomStr (p : Ptr) (mem : Memory) (rt : Runtime) : Option (Nat × Runtime) := do
  let c ← rt.cell p
  if isNumString c.contents then finishWith 0 (some p) rt
  else jsNewAtom (some p) .string mem rt

def jsFindAtom (bytes : List (BitVec 8)) (rt : Runtime) : Option (Nat × Runtime) := do
  let contents : JsString := ⟨false, bytes.map (BitVec.setWidth 16)⟩
  let hash := atomHashOf .string contents
  let found ← findLoop rt (fun c => sameAtom hash .string contents c && !c.contents.isWideChar)
    rt.chainFuel (rt.atomHash (bucketIn rt.atomHashSize hash))
  match found with
  | none => some (0, rt)
  | some i => do
      let rt ← jsDupAtom i rt
      some (i, rt)

def allocString (contents : JsString) (block : Ptr × Nat) (rt : Runtime) : Runtime :=
  rt.setCell block.1 ⟨1, contents, block.2, 0, .none, 0⟩

def startsWithDigit : List (BitVec 8) → Bool
  | [] => false
  | first :: _ => decide (48 ≤ first.toNat) && decide (first.toNat ≤ 57)

/-- `JS_NewAtomLen`; `decoded` is the string that the UTF-8 bytes denote. -/
def jsNewAtomLen (bytes : List (BitVec 8)) (decoded : JsString) (block : Option (Ptr × Nat))
    (mem : Memory) (rt : Runtime) : Option (Nat × Runtime) := do
  let (atom, rt) ← if startsWithDigit bytes then some (0, rt) else jsFindAtom bytes rt
  if atom ≠ 0 then some (atom, rt) else
    match block with
    | none => some (0, rt)
    | some block => jsNewAtomStr block.1 mem (allocString decoded block rt)

/-- The table together with the references the program holds: string values in
variables and properties, and atoms in shapes and bytecode. -/
structure Program where
  rt : Runtime
  values : List Ptr
  atoms : List Nat

/-- One call. Values and atoms are named by their place among those held; a call on a
place that does not exist does nothing. -/
inductive Op
  | newString (contents : JsString) (block : Ptr × Nat)
  | dupValue (k : Nat)
  | freeValue (k : Nat)
  | newAtomStr (k : Nat) (mem : Memory)
  | newSymbol (k : Nat) (type : NewType) (mem : Memory)
  | newNamelessSymbol (type : NewType) (mem : Memory)
  | newAtomLen (bytes : List (BitVec 8)) (decoded : JsString) (block : Option (Ptr × Nat))
      (mem : Memory)
  | atomToString (k : Nat)
  | dupAtom (k : Nat)
  | freeAtom (k : Nat)
  | resizeHash (size : Nat) (allocated : Bool)
  | concat (k1 k2 : Nat) (block : Option (Ptr × Nat))
  | addLoc (k1 k2 : Nat) (block : Option (Ptr × Nat))

def keepAtoms (i : Nat) (atoms : List Nat) : List Nat := if i = 0 then atoms else i :: atoms

def Program.keepAtom (prog : Program) (result : Nat × Runtime) : Program :=
  { prog with rt := result.2, atoms := keepAtoms result.1 prog.atoms }

def Program.keepValue (prog : Program) (result : Option Ptr × Runtime) : Program :=
  { prog with rt := result.2, values := result.1.toList ++ prog.values }

def Program.takeValue (prog : Program) (k : Nat) : Program := { prog with values := prog.values.eraseIdx k }

def step (op : Op) (prog : Program) : Option Program :=
  match op with
  | .newString contents block =>
    some { prog with
      rt := allocString contents block prog.rt
      values := block.1 :: prog.values }
  | .dupValue k =>
    match prog.values[k]? with
    | none => some prog
    | some p => (jsDupString p prog.rt).map fun rt => { prog with rt := rt, values := p :: prog.values }
  | .freeValue k =>
    match prog.values[k]? with
    | none => some prog
    | some p => (jsFreeString p prog.rt).map fun rt => { prog.takeValue k with rt := rt }
  | .newAtomStr k mem =>
    match prog.values[k]? with
    | none => some prog
    | some p => (jsNewAtomStr p mem prog.rt).map (prog.takeValue k).keepAtom
  | .newSymbol k type mem =>
    match prog.values[k]? with
    | none => some prog
    | some p => (jsNewAtom (some p) type mem prog.rt).map (prog.takeValue k).keepAtom
  | .newNamelessSymbol type mem =>
    if type.stored = .symbol then (jsNewAtom none type mem prog.rt).map prog.keepAtom
    else some prog
  | .newAtomLen bytes decoded block mem => (jsNewAtomLen bytes decoded block mem prog.rt).map prog.keepAtom
  | .atomToString k =>
    match prog.atoms[k]? with
    | none => some prog
    | some i => do
        let p ← prog.rt.ptrAt i
        let rt ← jsDupString p prog.rt
        some { prog with rt := rt, values := p :: prog.values }
  | .dupAtom k =>
    match prog.atoms[k]? with
    | none => some prog
    | some i => (jsDupAtom i prog.rt).map fun rt => { prog with rt := rt, atoms := i :: prog.atoms }
  | .freeAtom k =>
    match prog.atoms[k]? with
    | none => some prog
    | some i => (jsFreeAtom i prog.rt).map fun rt => { prog with rt := rt, atoms := prog.atoms.eraseIdx k }
  | .resizeHash size allocated =>
    (jsResizeAtomHash size allocated prog.rt).map fun rt => { prog with rt := rt }
  | .concat k1 k2 block =>
    match prog.values[k1]?, (prog.takeValue k1).values[k2]? with
    | some p1, some p2 =>
      (jsConcatString p1 p2 block prog.rt).map ((prog.takeValue k1).takeValue k2).keepValue
    | _, _ => some prog
  | .addLoc k1 k2 block =>
    match prog.values[k2]?, (prog.takeValue k2).values[k1]? with
    | some op2, some pv => do
        let (result, rt) ← addLoc pv op2 block prog.rt
        match result with
        | none => some { prog.takeValue k2 with rt := rt }
        | some new => some (((prog.takeValue k2).takeValue k1).keepValue (some new, rt))
    | _, _ => some prog

def run : List Op → Program → Option Program
  | [], prog => some prog
  | op :: ops, prog => do
      let prog ← step op prog
      run ops prog

def emptyProgram : Program where
  rt := {
    cell := fun _ => none
    atomArray := fun _ => .free 0
    atomHash := fun _ => 0
    atomHashSize := 256
    atomCount := 0
    atomSize := 0
    atomCountResize := 512
    atomFreeIndex := 0 }
  values := []
  atoms := []

section Start

def ofString (text : String) : JsString := ⟨false, text.toList.map fun c => BitVec.ofNat 16 c.toNat⟩

def ampleMemory : Memory := ⟨true, some 0, none, true⟩

def jsAtomInit : List String :=
  ["null", "false", "true", "if", "else", "return", "var", "this", "delete", "void", "typeof",
    "new", "in", "instanceof", "do", "while", "for", "break", "continue", "switch", "case",
    "default", "throw", "try", "catch", "finally", "function", "debugger", "with", "class",
    "const", "enum", "export", "extends", "import", "super", "implements", "interface", "let",
    "package", "private", "protected", "public", "static", "yield", "await", "", "length",
    "fileName", "lineNumber", "message", "cause", "errors", "stack", "name", "toString",
    "toLocaleString", "valueOf", "eval", "prototype", "constructor", "configurable", "writable",
    "enumerable", "value", "get", "set", "of", "__proto__", "undefined", "number", "boolean",
    "string", "object", "symbol", "integer", "unknown", "arguments", "callee", "caller",
    "<eval>", "<ret>", "<var>", "<arg_var>", "<with>", "lastIndex", "target", "index", "input",
    "defineProperties", "apply", "join", "concat", "split", "construct", "getPrototypeOf",
    "setPrototypeOf", "isExtensible", "preventExtensions", "has", "deleteProperty",
    "defineProperty", "getOwnPropertyDescriptor", "ownKeys", "add", "done", "next", "values",
    "source", "flags", "global", "unicode", "raw", "new.target", "this.active_func",
    "<home_object>", "<computed_field>", "<static_computed_field>", "<class_fields_init>",
    "<brand>", "#constructor", "as", "from", "meta", "*default*", "*", "Module", "then",
    "resolve", "reject", "promise", "proxy", "revoke", "async", "exec", "groups", "indices",
    "status", "reason", "globalThis", "bigint", "bigfloat", "bigdecimal", "roundingMode",
    "maximumSignificantDigits", "maximumFractionDigits", "not-equal", "timed-out", "ok",
    "toJSON", "Object", "Array", "Error", "Number", "String", "Boolean", "Symbol", "Arguments",
    "Math", "JSON", "Date", "Function", "GeneratorFunction", "ForInIterator", "RegExp",
    "ArrayBuffer", "SharedArrayBuffer", "Uint8ClampedArray", "Int8Array", "Uint8Array",
    "Int16Array", "Uint16Array", "Int32Array", "Uint32Array", "BigInt64Array", "BigUint64Array",
    "Float32Array", "Float64Array", "DataView", "BigInt", "BigFloat", "BigFloatEnv",
    "BigDecimal", "OperatorSet", "Operators", "Map", "Set", "WeakMap", "WeakSet", "Map Iterator",
    "Set Iterator", "Array Iterator", "String Iterator", "RegExp String Iterator", "Generator",
    "Proxy", "Promise", "PromiseResolveFunction", "PromiseRejectFunction", "AsyncFunction",
    "AsyncFunctionResolve", "AsyncFunctionReject", "AsyncGeneratorFunction", "AsyncGenerator",
    "EvalError", "RangeError", "ReferenceError", "SyntaxError", "TypeError", "URIError",
    "InternalError", "<brand>", "Symbol.toPrimitive", "Symbol.iterator", "Symbol.match",
    "Symbol.matchAll", "Symbol.replace", "Symbol.search", "Symbol.split", "Symbol.toStringTag",
    "Symbol.isConcatSpreadable", "Symbol.hasInstance", "Symbol.species", "Symbol.unscopables",
    "Symbol.asyncIterator", "Symbol.operatorSet"]

def JS_ATOM_Private_brand : Nat := 212

def JS_ATOM_Symbol_toPrimitive : Nat := 213

def initType (i : Nat) : NewType :=
  if i = JS_ATOM_Private_brand then .privateName
  else if i ≥ JS_ATOM_Symbol_toPrimitive then .symbol
  else .string

def jsInitAtoms : List Op :=
  (List.range jsAtomInit.length).flatMap fun k =>
    [.newString (ofString (jsAtomInit.getD k "")) (k + 1, 40), .newSymbol 0 (initType (k + 1)) ampleMemory]

end Start

end Atoms
