/-!
The contents of a `JSString` and its hash, as atoms and maps use them.
-/

namespace Strings

/-- The code units of a string. -/
abbrev Utf16 := List (BitVec 16)

structure JsString where
  isWideChar : Bool
  units : Utf16
deriving DecidableEq

def JsString.len (str : JsString) : Nat := str.units.length

/-- `hash_string8` and `hash_string16` compute the same function of the code units. -/
def hashString (str : JsString) (hash : BitVec 32) : BitVec 32 :=
  str.units.foldl (fun acc unit => acc * 263 + unit.zeroExtend 32) hash

end Strings
