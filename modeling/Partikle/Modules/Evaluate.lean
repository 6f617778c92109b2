import Partikle.Lib.Dfs
import Partikle.Modules.Resolve

/-!
Evaluation of linked modules without top-level await: `js_inner_module_evaluation` and `js_evaluate_module`. A
failed assertion and a null pointer that is followed give `none`.
-/

namespace Modules

open Function

def ModuleDef.requested {n : Nat} (m : ModuleDef n) : List (Fin n) := List.ofFn m.reqModule

/-- The values of `JSModuleStatus` that occur once everything is linked and nothing is asynchronous. -/
inductive ModuleStatus where
  | linked
  | evaluating
  | evaluated
deriving DecidableEq

inductive Promise (E : Type) where
  | pending
  | fulfilled
  | rejected (reason : E)
deriving DecidableEq

/-- The fields of all modules that evaluation uses, the stack that it links through `stack_prev`, and the modules
whose bodies have run. -/
structure EvalState (n : Nat) (E : Type) where
  status : Fin n → ModuleStatus
  dfsIndex : Fin n → Nat
  dfsAncestorIndex : Fin n → Nat
  cycleRoot : Fin n → Option (Fin n)
  evalException : Fin n → Option E
  promise : Fin n → Option (Promise E)
  stack : List (Fin n)
  ran : List (Fin n)

def linkedState (n : Nat) (E : Type) : EvalState n E where
  status := fun _ => .linked
  dfsIndex := fun _ => 0
  dfsAncestorIndex := fun _ => 0
  cycleRoot := fun _ => none
  evalException := fun _ => none
  promise := fun _ => none
  stack := []
  ran := []

variable {n : Nat} {E : Type}

def EvalState.enter (s : EvalState n E) (m : Fin n) (index : Nat) : EvalState n E :=
  { s with
    status := update s.status m .evaluating
    dfsIndex := update s.dfsIndex m index
    dfsAncestorIndex := update s.dfsAncestorIndex m index
    stack := m :: s.stack }

def EvalState.setAncestor (s : EvalState n E) (m : Fin n) (index : Nat) : EvalState n E :=
  { s with dfsAncestorIndex := update s.dfsAncestorIndex m index }

def evaluateRequested (evaluate : Fin n → Nat → EvalState n E → Option (Except E Nat × EvalState n E))
    (m : Fin n) : List (Fin n) → Nat → EvalState n E → Option (Except E Nat × EvalState n E)
  | [], index, s => some (.ok index, s)
  | m1 :: rest, index, s =>
    match evaluate m1 index s with
    | none => none
    | some (.error e, s) => some (.error e, s)
    | some (.ok index, s) =>
      match s.status m1 with
      | .linked => none
      | .evaluating =>
        evaluateRequested evaluate m rest index
          (s.setAncestor m (min (s.dfsAncestorIndex m) (s.dfsAncestorIndex m1)))
      | .evaluated =>
        match s.cycleRoot m1 with
        | none => none
        | some root =>
          if s.status root = .evaluated then
            match s.evalException root with
            | some e => some (.error e, s)
            | none => evaluateRequested evaluate m rest index s
          else none

def popComponent (m : Fin n) : List (Fin n) → EvalState n E → Option (EvalState n E)
  | [], _ => none
  | m1 :: rest, s =>
    let s := { s with
      stack := rest
      status := update s.status m1 .evaluated
      cycleRoot := update s.cycleRoot m1 (some m) }
    if m1 = m then some s else popComponent m rest s

def leave (m : Fin n) (index : Nat) (s : EvalState n E) : Option (Except E Nat × EvalState n E) :=
  if s.dfsAncestorIndex m ≤ s.dfsIndex m then
    if s.dfsIndex m = s.dfsAncestorIndex m then
      match popComponent m s.stack s with
      | none => none
      | some s => some (.ok index, s)
    else some (.ok index, s)
  else none

/-- The exception that the body of a module throws when it is executed behind the bodies given first. -/
abbrev Bodies (n : Nat) (E : Type) := List (Fin n) → Fin n → Option E

def executeSyncModule (body : Bodies n E) (m : Fin n) (s : EvalState n E) :
    Option E × EvalState n E :=
  (body s.ran m, { s with ran := s.ran ++ [m] })

/-- `frames` is how many calls the C stack still has room for and `overflow` what is thrown when there is none. -/
def jsInnerModuleEvaluation (g : Graph n) (body : Bodies n E) (overflow : E) :
    Nat → Fin n → Nat → EvalState n E → Option (Except E Nat × EvalState n E)
  | 0, _, _, s => some (.error overflow, s)
  | frames + 1, m, index, s =>
    match s.status m with
    | .evaluated =>
      match s.evalException m with
      | some e => some (.error e, s)
      | none => some (.ok index, s)
    | .evaluating => some (.ok index, s)
    | .linked =>
      match evaluateRequested (jsInnerModuleEvaluation g body overflow frames) m (g m).requested (index + 1)
          (s.enter m index) with
      | none => none
      | some (.error e, s) => some (.error e, s)
      | some (.ok index, s) =>
        match executeSyncModule body m s with
        | (some e, s) => some (.error e, s)
        | (none, s) => leave m index s

def failAll (m : Fin n) (e : E) : List (Fin n) → EvalState n E → Option (EvalState n E)
  | [], s => some { s with stack := [] }
  | m1 :: rest, s =>
    if s.status m1 = .evaluating then
      failAll m e rest { s with
        status := update s.status m1 .evaluated
        evalException := update s.evalException m1 (some e)
        cycleRoot := update s.cycleRoot m1 (some m) }
    else none

def EvalState.setPromise (s : EvalState n E) (m : Fin n) (p : Promise E) : EvalState n E :=
  { s with promise := update s.promise m (some p) }

def settle (m : Fin n) : Except E Nat × EvalState n E → Option (Promise E × EvalState n E)
  | (.error e, s) =>
    match failAll m e s.stack s with
    | none => none
    | some s =>
      match s.status m, s.evalException m with
      | .evaluated, some reason => some (.rejected reason, s.setPromise m (.rejected reason))
      | _, _ => none
  | (.ok _, s) =>
    match s.status m, s.evalException m, s.stack with
    | .evaluated, none, [] => some (.fulfilled, s.setPromise m .fulfilled)
    | _, _, _ => none

variable (g : Graph n) (body : Bodies n E) (overflow : E)

/-- `js_evaluate_module` from the point where it has found the module that carries the promise. -/
def evaluateRoot (frames : Nat) (m : Fin n) (s : EvalState n E) : Option (Promise E × EvalState n E) :=
  match s.promise m with
  | some p => some (p, s)
  | none =>
    match jsInnerModuleEvaluation g body overflow frames m 0 { s.setPromise m .pending with stack := [] } with
    | none => none
    | some result => settle m result

def jsEvaluateModule (frames : Nat) (m : Fin n) (s : EvalState n E) : Option (Promise E × EvalState n E) :=
  match s.status m with
  | .evaluating => none
  | .linked => evaluateRoot g body overflow frames m s
  | .evaluated =>
    match s.cycleRoot m with
    | none => none
    | some root => evaluateRoot g body overflow frames root s

def evaluateAll : List (Nat × Fin n) → EvalState n E → Option (EvalState n E)
  | [], s => some s
  | (frames, m) :: rest, s =>
    match jsEvaluateModule g body overflow frames m s with
    | none => none
    | some (_, s) => evaluateAll rest s

end Modules
