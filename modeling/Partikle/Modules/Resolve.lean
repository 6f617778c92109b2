import Partikle.Lib.Search

/-!
Exports of loaded modules and how a name is resolved: `js_resolve_export` on the tables of the engine, and
`ResolveExport` of ECMAScript on the records that it prescribes for the same modules.
-/

namespace Modules

inductive Atom where
  | null
  | default
  | star
  | ident (id : Nat)
deriving DecidableEq

/-- A `JSExportTypeEnum` with the member of the union that belongs to it. -/
inductive ExportType (reqModules : Nat) where
  | local (varIdx : Nat)
  | indirect (reqModuleIdx : Fin reqModules)

structure ExportEntry (reqModules : Nat) where
  exportType : ExportType reqModules
  localName : Atom
  exportName : Atom

structure ImportEntry (reqModules : Nat) where
  varIdx : Nat
  importName : Atom
  reqModuleIdx : Fin reqModules

/-- A `JSModuleDef` among `n` loaded modules, as far as exports depend on it. `initFunc` says that it is a C module. -/
structure ModuleDef (n : Nat) where
  reqModules : Nat
  reqModule : Fin reqModules → Fin n
  exportEntries : List (ExportEntry reqModules)
  starExportEntries : List (Fin reqModules)
  importEntries : List (ImportEntry reqModules)
  initFunc : Bool
  /-- `add_export_entry2` refuses a second export of a name. -/
  distinct : (exportEntries.map ExportEntry.exportName).Nodup

abbrev Graph (n : Nat) := Fin n → ModuleDef n

abbrev ResolveEntry (n : Nat) := Fin n × Atom

section Engine

variable {n : Nat}

structure Found (g : Graph n) where
  module : Fin n
  entry : ExportEntry (g module).reqModules

inductive ResolveResult (g : Graph n) where
  | found (at' : Found g)
  | notFound
  | circular
  | ambiguous

def findExportEntry (m : ModuleDef n) (exportName : Atom) : Option (ExportEntry m.reqModules) :=
  m.exportEntries.find? fun me => me.exportName = exportName

variable {g : Graph n}

def resolveStars (resolve : Fin n → List (ResolveEntry n) → Option (ResolveResult g × List (ResolveEntry n))) :
    List (Fin n) → Option (Found g) → List (ResolveEntry n) → Option (ResolveResult g × List (ResolveEntry n))
  | [], none, s => some (.notFound, s)
  | [], some me, s => some (.found me, s)
  | m1 :: rest, me, s =>
    match resolve m1 s with
    | none => none
    | some (.ambiguous, s) => some (.ambiguous, s)
    | some (.found res, s) =>
      match me with
      | none => resolveStars resolve rest (some res) s
      | some first =>
        if first.module ≠ res.module ∨ res.entry.localName ≠ first.entry.localName then some (.ambiguous, s)
        else resolveStars resolve rest (some first) s
    | some (.notFound, s) | some (.circular, s) => resolveStars resolve rest me s

/-- Every call takes one of the frames that the C stack has room for. The source does not check that there is one; with
`none` the stack overflows. -/
def jsResolveExport1 (g : Graph n) : Nat → Fin n → Atom → List (ResolveEntry n) →
    Option (ResolveResult g × List (ResolveEntry n))
  | 0, _, _, _ => none
  | frames + 1, m, exportName, s =>
    if (m, exportName) ∈ s then some (.circular, s)
    else
      let s := s ++ [(m, exportName)]
      match findExportEntry (g m) exportName with
      | some me =>
        match me.exportType with
        | .local _ => some (.found ⟨m, me⟩, s)
        | .indirect reqModuleIdx =>
          if me.localName = .star then some (.found ⟨m, me⟩, s)
          else jsResolveExport1 g frames ((g m).reqModule reqModuleIdx) me.localName s
      | none =>
        if exportName ≠ .default then
          resolveStars (fun m1 s => jsResolveExport1 g frames m1 exportName s)
            ((g m).starExportEntries.map (g m).reqModule) none s
        else some (.notFound, s)

def jsResolveExport (g : Graph n) (frames : Nat) (m : Fin n) (exportName : Atom) : Option (ResolveResult g) :=
  (jsResolveExport1 g frames m exportName []).map Prod.fst

end Engine

section Ecma

variable {n : Nat}

/-- The binding of a variable of a module, of an export of a C module, or a namespace object. -/
inductive BindingName where
  | variable (varIdx : Nat)
  | exported (exportName : Atom)
  | namespace
deriving DecidableEq

structure Binding (n : Nat) where
  module : Fin n
  bindingName : BindingName
deriving DecidableEq

inductive Resolution (n : Nat) where
  | resolved (binding : Binding n)
  | null
  | ambiguous
deriving DecidableEq

structure LocalExport where
  exportName : Atom
  bindingName : BindingName

/-- `importName` is `none` for all. -/
structure IndirectExport (n : Nat) where
  exportName : Atom
  importedModule : Fin n
  importName : Option Atom

structure ModuleRecord (n : Nat) where
  localExportEntries : List LocalExport
  indirectExportEntries : List (IndirectExport n)
  starExportEntries : List (Fin n)

/-- The import that an exported variable comes from, unless it is a namespace. -/
def importOf (m : ModuleDef n) (varIdx : Nat) : Option (ImportEntry m.reqModules) :=
  if m.initFunc then none
  else (m.importEntries.find? fun mi => mi.varIdx = varIdx).filter fun mi => mi.importName ≠ .star

/-- `ParseModule` makes an export of an imported variable an indirect one. -/
def localExport? (m : ModuleDef n) (me : ExportEntry m.reqModules) : Option LocalExport :=
  match me.exportType with
  | .local varIdx =>
    if (importOf m varIdx).isSome then none
    else some ⟨me.exportName, if m.initFunc then .exported me.exportName else .variable varIdx⟩
  | .indirect _ => none

def indirectExport? (m : ModuleDef n) (me : ExportEntry m.reqModules) : Option (IndirectExport n) :=
  match me.exportType with
  | .local varIdx =>
    (importOf m varIdx).map fun mi => ⟨me.exportName, m.reqModule mi.reqModuleIdx, some mi.importName⟩
  | .indirect reqModuleIdx =>
    some ⟨me.exportName, m.reqModule reqModuleIdx, if me.localName = .star then none else some me.localName⟩

def moduleRecord (m : ModuleDef n) : ModuleRecord n where
  localExportEntries := m.exportEntries.filterMap (localExport? m)
  indirectExportEntries := m.exportEntries.filterMap (indirectExport? m)
  starExportEntries := m.starExportEntries.map m.reqModule

def ecmaStars (resolve : Fin n → List (ResolveEntry n) → Option (Resolution n × List (ResolveEntry n))) :
    List (Fin n) → Option (Binding n) → List (ResolveEntry n) → Option (Resolution n × List (ResolveEntry n))
  | [], none, resolveSet => some (.null, resolveSet)
  | [], some starResolution, resolveSet => some (.resolved starResolution, resolveSet)
  | importedModule :: rest, starResolution, resolveSet =>
    match resolve importedModule resolveSet with
    | none => none
    | some (.ambiguous, resolveSet) => some (.ambiguous, resolveSet)
    | some (.null, resolveSet) => ecmaStars resolve rest starResolution resolveSet
    | some (.resolved resolution, resolveSet) =>
      match starResolution with
      | none => ecmaStars resolve rest (some resolution) resolveSet
      | some first =>
        if resolution.module ≠ first.module then some (.ambiguous, resolveSet)
        else if resolution.bindingName ≠ first.bindingName then some (.ambiguous, resolveSet)
        else ecmaStars resolve rest (some first) resolveSet

def ecmaResolveExport (records : Fin n → ModuleRecord n) : Nat → Fin n → Atom → List (ResolveEntry n) →
    Option (Resolution n × List (ResolveEntry n))
  | 0, _, _, _ => none
  | fuel + 1, m, exportName, resolveSet =>
    if (m, exportName) ∈ resolveSet then some (.null, resolveSet)
    else
      let resolveSet := resolveSet ++ [(m, exportName)]
      match (records m).localExportEntries.find? fun e => e.exportName = exportName with
      | some e => some (.resolved ⟨m, e.bindingName⟩, resolveSet)
      | none =>
        match (records m).indirectExportEntries.find? fun e => e.exportName = exportName with
        | some e =>
          match e.importName with
          | none => some (.resolved ⟨e.importedModule, .namespace⟩, resolveSet)
          | some importName => ecmaResolveExport records fuel e.importedModule importName resolveSet
        | none =>
          if exportName = .default then some (.null, resolveSet)
          else
            ecmaStars (fun m1 resolveSet => ecmaResolveExport records fuel m1 exportName resolveSet)
              (records m).starExportEntries none resolveSet

def EcmaResolves (g : Graph n) (m : Fin n) (exportName : Atom) (resolution : Resolution n) : Prop :=
  ∃ fuel resolveSet, ecmaResolveExport (fun m => moduleRecord (g m)) fuel m exportName [] =
    some (resolution, resolveSet)

end Ecma

end Modules
