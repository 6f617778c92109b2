import Partikle.Modules.Resolve

/-!
Both resolutions are searches of one graph, whose nodes are a module and a name. They differ in where an
imported variable that is exported again ends the search, and in what makes two ends the same.
-/

namespace Modules

open Search Option List

variable {n : Nat}

variable {exportName : Atom}

section Engine

variable {g : Graph n}

def expand (g : Graph n) : ResolveEntry n → Node (ResolveEntry n) (Found g)
  | (m, exportName) =>
    match findExportEntry (g m) exportName with
    | some me =>
      match me.exportType with
      | .local _ => .leaf ⟨m, me⟩
      | .indirect reqModuleIdx =>
        if me.localName = .star then .leaf ⟨m, me⟩
        else .forward ((g m).reqModule reqModuleIdx, me.localName)
    | none =>
      if exportName ≠ .default then
        .merge (((g m).starExportEntries.map (g m).reqModule).map fun m1 => (m1, exportName))
      else .merge []

def Found.key (found : Found g) : Fin n × Atom := (found.module, found.entry.localName)

def ResolveResult.of : Outcome (Found g) → ResolveResult g
  | .found me => .found me
  | .nothing => .notFound
  | .seen => .circular
  | .ambiguous => .ambiguous

theorem resolveStars_eq {resolve : Fin n → List (ResolveEntry n) → Option (ResolveResult g × List (ResolveEntry n))}
    {visit : ResolveEntry n → List (ResolveEntry n) → Option (Outcome (Found g) × List (ResolveEntry n))}
    (agree : ∀ m1 s, resolve m1 s = (visit (m1, exportName) s).map (Prod.map ResolveResult.of id))
    (modules : List (Fin n)) (me : Option (Found g)) (s : List (ResolveEntry n)) :
    resolveStars resolve modules me s = (mergeAll (sameKey Found.key) visit (modules.map fun m1 => (m1, exportName))
      me s).map (Prod.map ResolveResult.of id) := by
  induction modules generalizing me s with
  | nil => cases me <;> rfl
  | cons m1 rest ih =>
    rw [map_cons]
    unfold resolveStars mergeAll
    rw [agree m1 s]
    cases visit (m1, exportName) s with
    | none => rfl
    | some result =>
      obtain ⟨outcome, s'⟩ := result
      cases outcome with
      | ambiguous => rfl
      | nothing | seen => exact ih me s'
      | found res =>
        cases me with
        | none => exact ih (some res) s'
        | some first =>
          have same : sameKey Found.key first res = true ↔
              ¬(first.module ≠ res.module ∨ res.entry.localName ≠ first.entry.localName) := by
            simp only [sameKey, Found.key, decide_eq_true_eq, Prod.mk.injEq, not_or, not_not]
            exact and_congr_right fun _ => eq_comm
          simp only [map_some, Prod.map_apply, ResolveResult.of, id_eq]
          by_cases equal : sameKey Found.key first res = true
          · rw [if_neg (same.mp equal), if_pos equal]
            exact ih (some first) s'
          · rw [if_pos (not_not.mp (mt same.mpr equal)), if_neg equal]
            rfl

theorem jsResolveExport1_eq (fuel : Nat) (m : Fin n) (exportName : Atom) (s : List (ResolveEntry n)) :
    jsResolveExport1 g fuel m exportName s =
      (search (sameKey Found.key) (expand g) fuel (m, exportName) s).map (Prod.map ResolveResult.of id) := by
  induction fuel generalizing m exportName s with
  | zero => rfl
  | succ fuel ih =>
    unfold jsResolveExport1 search
    by_cases before : (m, exportName) ∈ s
    · rw [if_pos before, if_pos before]
      rfl
    · rw [if_neg before, if_neg before]
      simp only [expand]
      cases findExportEntry (g m) exportName with
      | some me =>
        cases type : me.exportType with
        | «local» varIdx => simp only [type]; rfl
        | indirect reqModuleIdx =>
          simp only [type]
          split
          · rfl
          · exact ih ..
      | none =>
        simp only
        split
        · exact resolveStars_eq (fun m1 s => ih m1 exportName s) ..
        · rfl

end Engine

section Ecma

def expandRecord (records : Fin n → ModuleRecord n) : ResolveEntry n → Node (ResolveEntry n) (Binding n)
  | (m, exportName) =>
    match (records m).localExportEntries.find? fun e => e.exportName = exportName with
    | some e => .leaf ⟨m, e.bindingName⟩
    | none =>
      match (records m).indirectExportEntries.find? fun e => e.exportName = exportName with
      | some e =>
        match e.importName with
        | none => .leaf ⟨e.importedModule, .namespace⟩
        | some importName => .forward (e.importedModule, importName)
      | none =>
        if exportName = .default then .merge []
        else .merge ((records m).starExportEntries.map fun m1 => (m1, exportName))

def Resolution.of : Outcome (Binding n) → Resolution n
  | .found binding => .resolved binding
  | .nothing | .seen => .null
  | .ambiguous => .ambiguous

theorem ecmaStars_eq {resolve : Fin n → List (ResolveEntry n) → Option (Resolution n × List (ResolveEntry n))}
    {visit : ResolveEntry n → List (ResolveEntry n) → Option (Outcome (Binding n) × List (ResolveEntry n))}
    (agree : ∀ m1 s, resolve m1 s = (visit (m1, exportName) s).map (Prod.map Resolution.of id))
    (modules : List (Fin n)) (starResolution : Option (Binding n)) (s : List (ResolveEntry n)) :
    ecmaStars resolve modules starResolution s = (mergeAll (sameKey id) visit (modules.map fun m1 => (m1, exportName))
      starResolution s).map (Prod.map Resolution.of id) := by
  induction modules generalizing starResolution s with
  | nil => cases starResolution <;> rfl
  | cons m1 rest ih =>
    rw [map_cons]
    unfold ecmaStars mergeAll
    rw [agree m1 s]
    cases visit (m1, exportName) s with
    | none => rfl
    | some result =>
      obtain ⟨outcome, s'⟩ := result
      cases outcome with
      | ambiguous => rfl
      | nothing | seen => exact ih starResolution s'
      | found resolution =>
        cases starResolution with
        | none => exact ih (some resolution) s'
        | some first =>
          simp only [map_some, Prod.map_apply, Resolution.of, id_eq]
          rcases eq_or_ne first resolution with rfl | equal
          · simp only [sameKey, ne_eq, not_true, if_false, decide_true, if_true]
            exact ih (some first) s'
          · have different : ¬sameKey id first resolution = true := by simpa [sameKey] using equal
            rw [if_neg different]
            by_cases sameModule : resolution.module ≠ first.module
            · rw [if_pos sameModule]
              rfl
            · have otherName : resolution.bindingName ≠ first.bindingName := by
                intro sameName
                cases resolution
                simp_all
              rw [if_neg sameModule, if_pos otherName]
              rfl

theorem ecmaResolveExport_eq (records : Fin n → ModuleRecord n) (fuel : Nat) (m : Fin n) (exportName : Atom)
    (s : List (ResolveEntry n)) : ecmaResolveExport records fuel m exportName s =
      (search (sameKey id) (expandRecord records) fuel (m, exportName) s).map (Prod.map Resolution.of id) := by
  induction fuel generalizing m exportName s with
  | zero => rfl
  | succ fuel ih =>
    unfold ecmaResolveExport search
    by_cases before : (m, exportName) ∈ s
    · rw [if_pos before, if_pos before]
      rfl
    · rw [if_neg before, if_neg before]
      simp only [expandRecord]
      cases (records m).localExportEntries.find? fun e => e.exportName = exportName with
      | some e => rfl
      | none =>
        cases (records m).indirectExportEntries.find? fun e => e.exportName = exportName with
        | some e =>
          simp only
          cases e.importName with
          | none => rfl
          | some importName => exact ih ..
        | none =>
          simp only
          split
          · rfl
          · exact ecmaStars_eq (fun m1 s => ih m1 exportName s) ..

theorem find?_filterMap {α β κ : Type} [DecidableEq κ] {f : α → Option β} {key : α → κ} {key' : β → κ}
    (keeps : ∀ a b, f a = some b → key' b = key a) {entries : List α} (distinct : (entries.map key).Nodup) (k : κ) :
    (entries.filterMap f).find? (fun b => key' b = k) = (entries.find? fun a => key a = k).bind f := by
  induction entries with
  | nil => rfl
  | cons a rest ih =>
    rw [map_cons, nodup_cons] at distinct
    have later := ih distinct.2
    rw [find?_cons, filterMap_cons]
    by_cases here : key a = k
    · have absent : rest.find? (fun a => key a = k) = none := by
        rw [find?_eq_none]
        intro b there same
        apply distinct.1
        rw [here, ← of_decide_eq_true same]
        exact mem_map_of_mem there
      cases made : f a with
      | none => simpa [here, made, absent] using later
      | some b => simp [here, made, keeps a b made]
    · cases made : f a with
      | none => simpa [here] using later
      | some b => simpa [here, keeps a b made] using later

variable (g : Graph n)

def expandEcma : ResolveEntry n → Node (ResolveEntry n) (Binding n) := expandRecord fun m => moduleRecord (g m)

def entryNode (m : Fin n) (me : ExportEntry (g m).reqModules) : Node (ResolveEntry n) (Binding n) :=
  match me.exportType with
  | .local varIdx =>
    match importOf (g m) varIdx with
    | some mi => .forward ((g m).reqModule mi.reqModuleIdx, mi.importName)
    | none => .leaf ⟨m, if (g m).initFunc then .exported me.exportName else .variable varIdx⟩
  | .indirect reqModuleIdx =>
    if me.localName = .star then .leaf ⟨(g m).reqModule reqModuleIdx, .namespace⟩
    else .forward ((g m).reqModule reqModuleIdx, me.localName)

theorem expandEcma_eq (m : Fin n) (exportName : Atom) : expandEcma g (m, exportName) =
      match findExportEntry (g m) exportName with
      | some me => entryNode g m me
      | none =>
        if exportName = .default then .merge []
        else .merge (((g m).starExportEntries.map (g m).reqModule).map fun m1 => (m1, exportName)) := by
  have locals : ((moduleRecord (g m)).localExportEntries.find? fun e => e.exportName = exportName) =
      (findExportEntry (g m) exportName).bind (localExport? (g m)) := by
    refine find?_filterMap (fun me e made => ?_) (g m).distinct exportName
    unfold localExport? at made
    split at made
    · split at made
      · cases made
      · cases made
        rfl
    · cases made
  have indirects : ((moduleRecord (g m)).indirectExportEntries.find? fun e => e.exportName = exportName) =
      (findExportEntry (g m) exportName).bind (indirectExport? (g m)) := by
    refine find?_filterMap (fun me e made => ?_) (g m).distinct exportName
    unfold indirectExport? at made
    split at made
    · obtain ⟨mi, -, rfl⟩ := map_eq_some_iff.mp made
      rfl
    · cases made
      rfl
  simp only [expandEcma, expandRecord, locals, indirects]
  cases findExportEntry (g m) exportName with
  | none => rfl
  | some me =>
    simp only [bind_some, entryNode, localExport?, indirectExport?]
    cases me.exportType with
    | «local» varIdx =>
      simp only
      cases importOf (g m) varIdx with
      | none | some _ => rfl
    | indirect reqModuleIdx => by_cases isStar : me.localName = .star <;> simp [isStar]

end Ecma

end Modules
