import Partikle.Lib.Effect

/-!
The internal methods of proxies. User code (traps, getters of what they return, the traps of a target that is itself
a proxy) is a computation on the state of the world.
-/

namespace Proxy

structure Engine (W E K V : Type) where
  undefined : V
  isUndefined : V → Bool
  isNull : V → Bool
  isObject : V → Bool
  isFunction : V → Bool
  toBool : V → Bool
  sameValue : V → V → Bool
  /-- The pointers of two values that are null or objects are equal. -/
  sameObject : V → V → Bool
  atomToValue : K → V
  valueToAtom : V → Option K
  typeError : String → E
  stackOverflowError : E
  stackOverflow : W → Bool
  /-- The result of `JS_HasProperty`, where an exception is -1 and a state to go on from. -/
  hasProperty : V → String → Effect W E (Except E Bool)
  getProperty : V → String → Effect W E V
  getLength : V → Effect W E Nat
  getElement : V → Nat → Effect W E V
  call : V → V → List V → Effect W E V

structure OwnDescriptor (V : Type) where
  configurable : Bool
  writable : Bool
  enumerable : Bool
  getset : Bool
  value : V
  getter : V
  setter : V

/-- The arguments of a definition: a field is present if its `JS_PROP_HAS_x` is set. -/
structure Descriptor (V : Type) where
  configurable : Option Bool
  writable : Option Bool
  enumerable : Option Bool
  value : Option V
  getter : Option V
  setter : Option V
  proper : getter.isSome ∨ setter.isSome → value = none ∧ writable = none

/-- An object by its internal methods. `extensible` is the field of `JSObject`, which a proxy never changes. -/
structure Object (W E K V : Type) where
  extensible : W → Bool
  isExtensible : Effect W E Bool
  getPrototype : Effect W E V
  getOwnProperty : K → Effect W E (Option (OwnDescriptor V))
  defineOwnProperty : K → Descriptor V → Bool → Effect W E Bool
  hasProperty : K → Effect W E Bool
  getProperty : K → V → Effect W E V
  setProperty : K → V → V → Bool → Effect W E Bool
  deleteProperty : K → Effect W E Bool
  getOwnPropertyNames : Effect W E (List K)

structure ProxyData (W E K V : Type) where
  target : Object W E K V
  targetValue : V
  handler : V
  isRevoked : W → Bool

variable {W E K V : Type} (env : Engine W E K V) (s : ProxyData W E K V)

def getProxyMethod (name : String) : Effect W E (Option V) := do
  if ← Effect.observe env.stackOverflow then
    Effect.throw env.stackOverflowError
  else if ← Effect.observe s.isRevoked then
    Effect.throw (env.typeError "revoked proxy")
  else
    let method ← env.getProperty s.handler name
    pure (if env.isNull method || env.isUndefined method then none else some method)

/-- What all methods of a proxy begin with: the target answers when there is no trap, and otherwise the result of the
trap is checked. -/
def withTrap {α : Type} (name : String) (args : List V) (forward : Effect W E α) (check : V → Effect W E α) :
    Effect W E α := do
  match ← getProxyMethod env s name with
  | none => forward
  | some method =>
    let ret ← env.call method s.handler (s.targetValue :: args)
    check ret

def checkGetPrototypeOf (ret : V) : Effect W E V := do
  if !env.isNull ret && !env.isObject ret then Effect.throw (env.typeError "proxy: inconsistent prototype")
  else if ← s.target.isExtensible then pure ret
  else
    let proto1 ← s.target.getPrototype
    if env.sameObject proto1 ret then pure ret else Effect.throw (env.typeError "proxy: inconsistent prototype")

def jsProxyGetPrototypeOf : Effect W E V :=
  withTrap env s "getPrototypeOf" [] s.target.getPrototype (checkGetPrototypeOf env s)

def checkIsExtensible (ret : V) : Effect W E Bool := do
  let res2 ← s.target.isExtensible
  if env.toBool ret = res2 then pure res2 else Effect.throw (env.typeError "proxy: inconsistent isExtensible")

def jsProxyIsExtensible : Effect W E Bool :=
  withTrap env s "isExtensible" [] s.target.isExtensible (checkIsExtensible env s)

def checkHas (atom : K) (ret : V) : Effect W E Bool := do
  if env.toBool ret then pure true
  else
    match ← s.target.getOwnProperty atom with
    | none => pure false
    | some desc =>
      if !desc.configurable || !(← Effect.observe s.target.extensible) then
        Effect.throw (env.typeError "proxy: inconsistent has")
      else pure false

def jsProxyHas (atom : K) : Effect W E Bool :=
  withTrap env s "has" [env.atomToValue atom] (s.target.hasProperty atom) (checkHas env s atom)

def checkGet (atom : K) (ret : V) : Effect W E V := do
  match ← s.target.getOwnProperty atom with
  | none => pure ret
  | some desc =>
    if !desc.getset && !desc.configurable && !desc.writable then
      if env.sameValue desc.value ret then pure ret else Effect.throw (env.typeError "proxy: inconsistent get")
    else if desc.getset && !desc.configurable then
      if env.isUndefined desc.getter && !env.isUndefined ret then
        Effect.throw (env.typeError "proxy: inconsistent get")
      else pure ret
    else pure ret

def jsProxyGet (atom : K) (receiver : V) : Effect W E V :=
  withTrap env s "get" [env.atomToValue atom, receiver] (s.target.getProperty atom receiver) (checkGet env s atom)

def checkSet (atom : K) (value : V) (throws : Bool) (ret : V) : Effect W E Bool := do
  if env.toBool ret then
    match ← s.target.getOwnProperty atom with
    | none => pure true
    | some desc =>
      if !desc.getset && !desc.configurable && !desc.writable then
        if env.sameValue desc.value value then pure true else Effect.throw (env.typeError "proxy: inconsistent set")
      else if desc.getset && !desc.configurable && env.isUndefined desc.setter then
        Effect.throw (env.typeError "proxy: inconsistent set")
      else pure true
  else if throws then Effect.throw (env.typeError "proxy: cannot set property")
  else pure false

/-- `throws` is what the flags `JS_PROP_THROW` and `JS_PROP_THROW_STRICT` come to. -/
def jsProxySet (atom : K) (value receiver : V) (throws : Bool) : Effect W E Bool :=
  withTrap env s "set" [env.atomToValue atom, value, receiver] (s.target.setProperty atom value receiver throws)
    (checkSet env s atom value throws)

section Descriptors

/-- `js_obj_to_desc` takes every result of `JS_HasProperty` but 0 for true, the -1 of an exception too. -/
def descField (obj : V) (name : String) (get : Effect W E V) : Effect W E (Option V) := do
  match ← env.hasProperty obj name with
  | .ok false => pure none
  | .ok true | .error _ =>
    let v ← get
    pure (some v)

def descValue (obj : V) (name : String) : Effect W E (Option V) := descField env obj name (env.getProperty obj name)

def descAccessor (obj : V) (name message : String) : Effect W E (Option V) :=
  descField env obj name do
    let f ← Effect.rethrow (env.getProperty obj name) (env.typeError message)
    if env.isUndefined f || env.isFunction f then pure f else Effect.throw (env.typeError message)

def objToDesc (obj : V) : Effect W E (Descriptor V) := do
  if !env.isObject obj then Effect.throw (env.typeError "not an object")
  else
    let configurable ← descValue env obj "configurable"
    let writable ← descValue env obj "writable"
    let enumerable ← descValue env obj "enumerable"
    let value ← descValue env obj "value"
    let getter ← descAccessor env obj "get" "invalid getter"
    let setter ← descAccessor env obj "set" "invalid setter"
    if proper : getter.isSome ∨ setter.isSome → value = none ∧ writable.map env.toBool = none then
      pure ⟨configurable.map env.toBool, writable.map env.toBool, enumerable.map env.toBool, value, getter, setter,
        proper⟩
    else Effect.throw (env.typeError "cannot have setter/getter and value or writable")

def checkDefinePropFlags (prop : OwnDescriptor V) (configurable writable enumerable : Option Bool)
    (hasValue hasAccessor : Bool) : Bool :=
  prop.configurable ||
    (!(configurable == some true) && (enumerable == none || enumerable == some prop.enumerable) &&
      (!(hasValue || writable.isSome || hasAccessor) ||
        (hasAccessor == prop.getset && (hasAccessor || prop.getset || prop.writable || !(writable == some true)))))

def Descriptor.hasAccessor (d : Descriptor V) : Bool := d.getter.isSome || d.setter.isSome

end Descriptors

/-- The descriptor that `js_proxy_get_own_property` stores: the flags that `js_obj_to_desc` has set, among which
`JS_PROP_GETSET` is not. -/
def Descriptor.stored (d : Descriptor V) : OwnDescriptor V where
  configurable := d.configurable.getD false
  writable := d.writable.getD false
  enumerable := d.enumerable.getD false
  getset := false
  value := d.value.getD env.undefined
  getter := d.getter.getD env.undefined
  setter := d.setter.getD env.undefined

def checkGetOwnProperty (prop : K) (trapResult : V) : Effect W E (Option (OwnDescriptor V)) := do
  if !env.isObject trapResult && !env.isUndefined trapResult then
    Effect.throw (env.typeError "proxy: inconsistent getOwnPropertyDescriptor")
  else
    let target ← s.target.getOwnProperty prop
    if env.isUndefined trapResult then
      match target with
      | none => pure none
      | some desc =>
        if !desc.configurable || !(← Effect.observe s.target.extensible) then
          Effect.throw (env.typeError "proxy: inconsistent getOwnPropertyDescriptor")
        else pure none
    else
      let extensibleTarget ← s.target.isExtensible
      let d ← objToDesc env trapResult
      let result := d.stored env
      let compatible : Bool := match target with
        | none => extensibleTarget
        | some desc =>
          checkDefinePropFlags desc (some result.configurable) (some result.writable) (some result.enumerable) true
            d.hasAccessor
      let bound : Bool := match target with
        | none => result.configurable
        | some desc => result.configurable || (!desc.configurable && (result.writable || !desc.writable))
      if compatible && bound then pure (some result)
      else Effect.throw (env.typeError "proxy: inconsistent getOwnPropertyDescriptor")

def jsProxyGetOwnProperty (prop : K) : Effect W E (Option (OwnDescriptor V)) :=
  withTrap env s "getOwnPropertyDescriptor" [env.atomToValue prop] (s.target.getOwnProperty prop)
    (checkGetOwnProperty env s prop)

def checkDefineOwnProperty (prop : K) (d : Descriptor V) (throws : Bool) (ret : V) : Effect W E Bool := do
  if !env.toBool ret then
    if throws then Effect.throw (env.typeError "proxy: defineProperty exception") else pure false
  else
    let settingNotConfigurable := d.configurable == some false
    match ← s.target.getOwnProperty prop with
    | none =>
      if !(← Effect.observe s.target.extensible) || settingNotConfigurable then
        Effect.throw (env.typeError "proxy: inconsistent defineProperty")
      else pure true
    | some desc =>
      let flagsOk := checkDefinePropFlags desc d.configurable d.writable d.enumerable d.value.isSome d.hasAccessor
      let accessorOk := !(desc.getset && !desc.configurable) ||
        (d.getter.all (env.sameValue · desc.getter) && d.setter.all (env.sameValue · desc.setter))
      let valueOk := if !desc.configurable && desc.writable then d.writable == some true
        else desc.configurable || desc.writable || d.value.all (env.sameValue · desc.value)
      let writableOk := !(d.writable.isSome && !desc.getset && !desc.configurable && desc.writable)
      if flagsOk && !(desc.configurable && settingNotConfigurable) &&
          (if d.hasAccessor then accessorOk else !d.value.isSome || valueOk) && writableOk then pure true
      else Effect.throw (env.typeError "proxy: inconsistent defineProperty")

def jsProxyDefineOwnProperty (createDesc : Descriptor V → V) (prop : K) (d : Descriptor V) (throws : Bool) :
    Effect W E Bool :=
  withTrap env s "defineProperty" [env.atomToValue prop, createDesc d] (s.target.defineOwnProperty prop d throws)
    (checkDefineOwnProperty env s prop d throws)

def checkDeleteProperty (atom : K) (ret : V) : Effect W E Bool := do
  if env.toBool ret then
    match ← s.target.getOwnProperty atom with
    | none => pure true
    | some desc =>
      if !desc.configurable then Effect.throw (env.typeError "proxy: inconsistent deleteProperty")
      else if ← s.target.isExtensible then pure true
      else Effect.throw (env.typeError "proxy: inconsistent deleteProperty")
  else pure false

def jsProxyDeleteProperty (atom : K) : Effect W E Bool :=
  withTrap env s "deleteProperty" [env.atomToValue atom] (s.target.deleteProperty atom)
    (checkDeleteProperty env s atom)

section Names

def readKeys (array : V) : Nat → Nat → Effect W E (List K)
  | _, 0 => pure []
  | i, n + 1 => do
      let v ← env.getElement array i
      match env.valueToAtom v with
      | none => Effect.throw (env.typeError "proxy: properties must be strings or symbols")
      | some atom =>
        let rest ← readKeys array (i + 1) n
        pure (atom :: rest)

variable [DecidableEq K]

def markKeys (isExtensible : Bool) : List K → List (K × Bool) → Effect W E (List (K × Bool))
  | [], tab => pure tab
  | name :: names, tab => do
      if ← Effect.observe s.isRevoked then Effect.throw (env.typeError "revoked proxy")
      else
        match ← s.target.getOwnProperty name with
        | none => markKeys isExtensible names tab
        | some desc =>
          if !desc.configurable || !isExtensible then
            if tab.any (·.1 = name) then
              markKeys isExtensible names
                (if isExtensible then tab else tab.map fun e => (e.1, e.2 || e.1 = name))
            else Effect.throw (env.typeError "proxy: target property must be present in proxy ownKeys")
          else markKeys isExtensible names tab

def checkGetOwnPropertyNames (array : V) : Effect W E (List K) := do
  let len ← env.getLength array
  let keys ← readKeys env array 0 len
  if ¬keys.Nodup then Effect.throw (env.typeError "proxy: duplicate property")
  else
    let isExtensible ← s.target.isExtensible
    if ← Effect.observe s.isRevoked then Effect.throw (env.typeError "revoked proxy")
    else
      let names ← s.target.getOwnPropertyNames
      let tab ← markKeys env s isExtensible names (keys.map (·, false))
      if !isExtensible && !tab.all (·.2) then
        Effect.throw (env.typeError
          "proxy: property not present in target were returned by non extensible proxy")
      else pure keys

def jsProxyGetOwnPropertyNames : Effect W E (List K) :=
  withTrap env s "ownKeys" [] s.target.getOwnPropertyNames (checkGetOwnPropertyNames env s)

end Names

/-- A proxy is an object again, and can be the target of another one. -/
def proxy [DecidableEq K] (createDesc : Descriptor V → V) : Object W E K V where
  extensible := fun _ => true
  isExtensible := jsProxyIsExtensible env s
  getPrototype := jsProxyGetPrototypeOf env s
  getOwnProperty := jsProxyGetOwnProperty env s
  defineOwnProperty := jsProxyDefineOwnProperty env s createDesc
  hasProperty := jsProxyHas env s
  getProperty := jsProxyGet env s
  setProperty := jsProxySet env s
  deleteProperty := jsProxyDeleteProperty env s
  getOwnPropertyNames := jsProxyGetOwnPropertyNames env s

end Proxy
