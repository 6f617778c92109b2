import Partikle.Modules.Agree
import Mathlib.Data.Finset.Prod
import Mathlib.Data.Fintype.Basic

/-!
The engine and ECMAScript agree on a graph of modules exactly when export entries are the same for the engine where
they are the same binding. Imported variables that are exported again, namespaces, and modules whose
entries have no local names are where that may fail.
-/

namespace Modules

open Search List Option

variable {n : Nat} (g : Graph n)

/-- The engine can get to an export entry by following indirect and star exports. -/
def Gets (m : Fin n) (exportName : Atom) (at' : Found g) : Prop := Answers (expand g) (m, exportName) at'

/-- A binding is there to be found if imported variables are followed too. -/
def Leads (m : Fin n) (exportName : Atom) (binding : Binding n) : Prop := Answers (expandEcma g) (m, exportName) binding

variable {name exportName : Atom} {result : ResolveResult g} {fuel : Nat} {at' : Found g} {m : Fin n}

variable {me : ExportEntry (g m).reqModules} {mi : ImportEntry (g m).reqModules}

section Terminates

def names (exportName : Atom) : List Atom :=
  exportName :: (finRange n).flatMap fun m =>
    (g m).exportEntries.map ExportEntry.localName ++ (g m).importEntries.map ImportEntry.importName

def nodes (exportName : Atom) : Finset (ResolveEntry n) := Finset.univ ×ˢ (names g exportName).toFinset

variable {g}

theorem mem_nodes : (m, name) ∈ nodes g exportName ↔ name ∈ names g exportName := by
  simp [nodes]

theorem localName_mem_names (exportName : Atom)
    (there : me ∈ (g m).exportEntries) : me.localName ∈ names g exportName := by
  refine .tail _ (mem_flatMap.mpr ⟨m, mem_finRange m, mem_append_left _ ?_⟩)
  exact mem_map_of_mem there

theorem importName_mem_names (exportName : Atom)
    (there : mi ∈ (g m).importEntries) : mi.importName ∈ names g exportName := by
  refine .tail _ (mem_flatMap.mpr ⟨m, mem_finRange m, mem_append_right _ ?_⟩)
  exact mem_map_of_mem there

theorem findExportEntry_mem
    (found : findExportEntry (g m) name = some me) : me ∈ (g m).exportEntries ∧ me.exportName = name :=
  ⟨mem_of_find?_eq_some found, by simpa using find?_some found⟩

theorem importOf_mem {varIdx : Nat} (found : importOf (g m) varIdx = some mi) : mi ∈ (g m).importEntries := by
  unfold importOf at found
  split at found
  · cases found
  · exact mem_of_find?_eq_some (filter_eq_some_iff.mp found).1

theorem expand_same (source : ResolveEntry n) : (∃ at', expand g source = .leaf at') ∨
    (∀ target, Edge (expand g) source target ↔ Edge (expandEcma g) source target) ∧
      ∀ binding, expandEcma g source ≠ .leaf binding := by
  obtain ⟨m, name⟩ := source
  simp only [Edge, expand, expandEcma_eq]
  cases findExportEntry (g m) name with
  | some me =>
    simp only [entryNode]
    cases me.exportType with
    | «local» varIdx => exact .inl ⟨_, rfl⟩
    | indirect reqModuleIdx => by_cases isStar : me.localName = .star <;> simp [isStar]
  | none => by_cases isDefault : name = .default <;> simp [isDefault]

theorem edge_ecma {source target : ResolveEntry n} (edge : Edge (expand g) source target) :
    Edge (expandEcma g) source target := by
  rcases expand_same (g := g) source with ⟨at', isLeaf⟩ | ⟨same, -⟩
  · simp [Edge, isLeaf] at edge
  · exact (same target).mp edge

theorem nodes_closed_ecma :
    ∀ source ∈ nodes g exportName, ∀ target, Edge (expandEcma g) source target → target ∈ nodes g exportName := by
  rintro ⟨m, name⟩ member ⟨m', name'⟩ edge
  rw [mem_nodes] at member ⊢
  simp only [Edge, expandEcma_eq] at edge
  cases found : findExportEntry (g m) name with
  | some me =>
    have there := localName_mem_names exportName (findExportEntry_mem found).1
    simp only [found, entryNode] at edge
    cases type : me.exportType with
    | «local» varIdx =>
      cases imported : importOf (g m) varIdx with
      | none => simp [type, imported] at edge
      | some mi =>
        have there' := importName_mem_names exportName (importOf_mem imported)
        simp_all
    | indirect reqModuleIdx => by_cases isStar : me.localName = .star <;> simp_all
  | none =>
    rcases eq_or_ne name .default with rfl | isDefault
    · simp [found] at edge
    · simp only [found, isDefault, if_false, reduceCtorEq, Node.merge.injEq, false_or,
        exists_eq_left', List.mem_map, Prod.mk.injEq] at edge
      obtain ⟨_, _, _, rfl⟩ := edge
      exact member

theorem jsResolveExport_mono {fuel' : Nat} (ends : jsResolveExport g fuel m exportName = some result)
    (le : fuel ≤ fuel') : jsResolveExport g fuel' m exportName = some result := by
  rw [jsResolveExport, jsResolveExport1_eq, Option.map_map, map_eq_some_iff] at ends ⊢
  obtain ⟨found, ends, is⟩ := ends
  exact ⟨found, search_mono ends le, is⟩

theorem jsResolveExport_ends (m : Fin n) (exportName : Atom) :
    ∃ result, (∀ fuel, (nodes g exportName).card < fuel → jsResolveExport g fuel m exportName = some result) ∧
      ∃ outcome, result = ResolveResult.of outcome ∧ Decides (expand g) Found.key (m, exportName) outcome := by
  have start : (m, exportName) ∈ nodes g exportName := mem_nodes.mpr (.head _)
  have enough : (nodes g exportName \ [].toFinset).card < (nodes g exportName).card + 1 := by simp
  obtain ⟨⟨outcome, visited⟩, ends⟩ := search_total Found.key
    (fun source member target edge => nodes_closed_ecma source member target (edge_ecma edge)) start enough
  refine ⟨ResolveResult.of outcome, fun fuel le => ?_, outcome, rfl, search_decides ends⟩
  rw [jsResolveExport, jsResolveExport1_eq, search_mono ends le]
  rfl

theorem EcmaResolves.unique {resolution resolution' : Resolution n} (resolves : EcmaResolves g m exportName resolution)
    (resolves' : EcmaResolves g m exportName resolution') : resolution = resolution' := by
  obtain ⟨fuel, s, ends⟩ := resolves
  obtain ⟨fuel', s', ends'⟩ := resolves'
  rw [ecmaResolveExport_eq, map_eq_some_iff] at ends ends'
  obtain ⟨result, ends, is⟩ := ends
  obtain ⟨result', ends', is'⟩ := ends'
  have same : result = result' := by
    have more := search_mono ends (Nat.le_max_left fuel fuel')
    rw [search_mono ends' (Nat.le_max_right fuel fuel')] at more
    exact (some.inj more).symm
  rw [same, is'] at is
  exact congrArg Prod.fst is.symm

theorem ecmaResolves_iff (m : Fin n) (exportName : Atom) :
    ∃ outcome, Decides (expandEcma g) id (m, exportName) outcome ∧
      ∀ resolution, EcmaResolves g m exportName resolution ↔ Resolution.of outcome = resolution := by
  have start : (m, exportName) ∈ nodes g exportName := mem_nodes.mpr (.head _)
  have enough : (nodes g exportName \ [].toFinset).card < (nodes g exportName).card + 1 := by simp
  obtain ⟨⟨outcome, visited⟩, ends⟩ := search_total id nodes_closed_ecma start enough
  have resolves : EcmaResolves g m exportName (Resolution.of outcome) := by
    refine ⟨(nodes g exportName).card + 1, visited, ?_⟩
    rw [ecmaResolveExport_eq]
    exact congrArg (Option.map _) ends
  exact ⟨outcome, search_decides ends, fun resolution => ⟨resolves.unique, fun same => same ▸ resolves⟩⟩

end Terminates

section Bindings

variable {g}

variable {binding : Binding n} {source target : ResolveEntry n}

theorem ecmaResolves_resolved :
    EcmaResolves g m exportName (.resolved binding) ↔ Leads g m exportName binding ∧ ∀ other,
      Leads g m exportName other → other = binding := by
  obtain ⟨outcome, decides, resolves⟩ := ecmaResolves_iff (g := g) m exportName
  rw [resolves]
  cases outcome with
  | found answer =>
    constructor
    · rintro ⟨⟩
      exact decides
    · rintro ⟨leads, only⟩
      rw [only answer decides.1]
      rfl
  | nothing | seen => exact iff_of_false nofun fun one => decides binding one.1
  | ambiguous =>
    obtain ⟨answer, other, leads₁, leads₂, differ⟩ := decides
    exact iff_of_false nofun fun one => differ ((one.2 answer leads₁).trans (one.2 other leads₂).symm)

theorem ecmaResolves_null : EcmaResolves g m exportName .null ↔ ∀ binding, ¬Leads g m exportName binding := by
  obtain ⟨outcome, decides, resolves⟩ := ecmaResolves_iff (g := g) m exportName
  rw [resolves]
  cases outcome with
  | found answer => exact iff_of_false nofun fun none' => none' answer decides.1
  | nothing | seen => exact iff_of_true rfl decides
  | ambiguous =>
    obtain ⟨answer, other, leads, -⟩ := decides
    exact iff_of_false nofun fun none' => none' answer leads

theorem ecmaResolves_ambiguous :
    EcmaResolves g m exportName .ambiguous ↔ ∃ binding other, Leads g m exportName binding ∧
      Leads g m exportName other ∧ binding ≠ other := by
  obtain ⟨outcome, decides, resolves⟩ := ecmaResolves_iff (g := g) m exportName
  rw [resolves]
  cases outcome with
  | found answer =>
    apply iff_of_false nofun
    rintro ⟨binding, other, leads, leads', differ⟩
    exact differ ((decides.2 binding leads).trans (decides.2 other leads').symm)
  | nothing | seen => exact iff_of_false nofun fun ⟨binding, _, leads, _⟩ => decides binding leads
  | ambiguous => exact iff_of_true rfl decides

theorem expand_eq_leaf {node : ResolveEntry n} (is : expand g node = .leaf at') :
    node = (at'.module, at'.entry.exportName) ∧
      findExportEntry (g at'.module) at'.entry.exportName = some at'.entry := by
  obtain ⟨m, name⟩ := node
  simp only [expand] at is
  cases found : findExportEntry (g m) name with
  | some me =>
    have named := (findExportEntry_mem found).2
    have same : at' = ⟨m, me⟩ := by
      simp only [found] at is
      cases type : me.exportType with
      | «local» varIdx => simpa [type] using is.symm
      | indirect reqModuleIdx => by_cases isStar : me.localName = .star <;> simp_all
    subst same
    exact ⟨by rw [named], named ▸ found⟩
  | none =>
    simp only [found] at is
    split at is <;> cases is

end Bindings

/-- The bindings that an export entry stands for: one, unless it is an imported variable. -/
def Found.Stands (at' : Found g) (binding : Binding n) : Prop := Leads g at'.module at'.entry.exportName binding

/-- Either all export entries that can be got to have one module and local name and stand for one binding, or two have
not and two bindings can be led to. -/
def ToldApart (m : Fin n) (exportName : Atom) : Prop :=
  (∀ at' other, Gets g m exportName at' → Gets g m exportName other →
    at'.key = other.key ∧ ∃ binding, ∀ b, (at'.Stands g b ↔ b = binding) ∧ (other.Stands g b ↔ b = binding)) ∨
  (∃ at' other, Gets g m exportName at' ∧ Gets g m exportName other ∧ at'.key ≠ other.key) ∧
    ∃ at' other b b', Gets g m exportName at' ∧ Gets g m exportName other ∧ at'.Stands g b ∧ other.Stands g b' ∧ b ≠ b'

/-- The result of the engine is that of ECMAScript. An entry stands for the binding that ECMAScript resolves it to. -/
def Agrees (m : Fin n) (exportName : Atom) : ResolveResult g → Prop
  | .found at' => ∃ binding, EcmaResolves g m exportName (.resolved binding) ∧
      EcmaResolves g at'.module at'.entry.exportName (.resolved binding)
  | .notFound | .circular => EcmaResolves g m exportName .null
  | .ambiguous => EcmaResolves g m exportName .ambiguous

section Main

variable {g} {binding : Binding n}

theorem leads_iff : Leads g m exportName binding ↔ ∃ at', Gets g m exportName at' ∧ at'.Stands g binding := by
  constructor
  · rintro ⟨leaf, reaches, is⟩
    unfold Gets
    generalize (m, exportName) = node at reaches
    induction reaches using Relation.ReflTransGen.head_induction_on with
    | refl =>
      obtain ⟨at', isLeaf⟩ := (expand_same leaf).resolve_right fun same => same.2 _ is
      obtain ⟨rfl, -⟩ := expand_eq_leaf isLeaf
      exact ⟨at', ⟨_, .refl, isLeaf⟩, _, .refl, is⟩
    | @head source target edge later ih =>
      rcases expand_same (g := g) source with ⟨at', isLeaf⟩ | ⟨same, -⟩
      · obtain ⟨rfl, -⟩ := expand_eq_leaf isLeaf
        exact ⟨at', ⟨_, .refl, isLeaf⟩, leaf, .head edge later, is⟩
      · obtain ⟨at', ⟨leaf', reaches', isLeaf⟩, stands⟩ := ih
        exact ⟨at', ⟨leaf', .head ((same target).mpr edge) reaches', isLeaf⟩, stands⟩
  · rintro ⟨at', ⟨leaf, reaches, isLeaf⟩, leaf', reaches', is⟩
    obtain ⟨rfl, -⟩ := expand_eq_leaf isLeaf
    exact ⟨leaf', (reaches.lift id fun _ _ => edge_ecma).trans reaches', is⟩

theorem agrees_iff
    (even : ∀ at' other, Gets g m exportName at' → Gets g m exportName other → at'.key = other.key →
      (∃ b, at'.Stands g b) → ∃ b, other.Stands g b)
    {outcome : Outcome (Found g)} (decides : Decides (expand g) Found.key (m, exportName) outcome) :
    Agrees g m exportName (ResolveResult.of outcome) ↔ ToldApart g m exportName := by
  cases outcome with
  | found at' =>
    obtain ⟨gets, only⟩ := decides
    constructor
    · rintro ⟨binding, resolves, stands⟩
      obtain ⟨-, one⟩ := ecmaResolves_resolved.mp resolves
      obtain ⟨stands, -⟩ := ecmaResolves_resolved.mp stands
      have all : ∀ other, Gets g m exportName other → ∀ b, other.Stands g b ↔ b = binding := by
        intro other gets' b
        have below : ∀ c, other.Stands g c → c = binding := fun c stands' =>
          one c (leads_iff.mpr ⟨other, gets', stands'⟩)
        obtain ⟨c, stands'⟩ := even at' other gets gets' (only other gets').symm ⟨binding, stands⟩
        exact ⟨below b, fun same => same ▸ below c stands' ▸ stands'⟩
      exact .inl fun first other gets gets' =>
        ⟨(only first gets).trans (only other gets').symm, binding, fun b => ⟨all first gets b, all other gets' b⟩⟩
    · rintro (same | ⟨⟨first, other, gets, gets', differ⟩, -⟩)
      · obtain ⟨-, binding, stands⟩ := same at' at' gets gets
        have stands (b) := (stands b).1
        have all : ∀ b, Leads g m exportName b → b = binding := by
          intro b leads
          obtain ⟨other, gets', stands'⟩ := leads_iff.mp leads
          obtain ⟨-, c, both⟩ := same at' other gets gets'
          rw [(both b).2.mp stands']
          exact ((stands c).mp ((both c).1.mpr rfl))
        exact ⟨binding, ecmaResolves_resolved.mpr ⟨leads_iff.mpr ⟨at', gets, (stands _).mpr rfl⟩, all⟩,
          ecmaResolves_resolved.mpr ⟨(stands _).mpr rfl, fun b => (stands b).mp⟩⟩
      · exact absurd ((only first gets).trans (only other gets').symm) differ
  | nothing | seen =>
    refine iff_of_true (ecmaResolves_null.mpr fun binding leads => ?_)
      (.inl fun at' _ gets => absurd gets (decides at'))
    obtain ⟨at', gets, -⟩ := leads_iff.mp leads
    exact decides at' gets
  | ambiguous =>
    obtain ⟨first, other, gets, gets', differ⟩ := decides
    refine ecmaResolves_ambiguous.trans ⟨?_, ?_⟩
    · rintro ⟨b, b', leads, leads', different⟩
      obtain ⟨at₁, gets₁, stands⟩ := leads_iff.mp leads
      obtain ⟨at₂, gets₂, stands'⟩ := leads_iff.mp leads'
      exact .inr ⟨⟨first, other, gets, gets', differ⟩, at₁, at₂, b, b', gets₁, gets₂, stands, stands', different⟩
    · rintro (same | ⟨-, at₁, at₂, b, b', gets₁, gets₂, stands, stands', different⟩)
      · exact absurd (same first other gets gets').1 differ
      · exact ⟨b, b', leads_iff.mpr ⟨at₁, gets₁, stands⟩, leads_iff.mpr ⟨at₂, gets₂, stands'⟩, different⟩

end Main

/-- `a` exports a variable `x`, `b` imports it and exports it again, and `c` exports all of both. -/
def exportedAgain : Graph 3
  | 0 => ⟨0, nofun, [⟨.local 0, .ident 0, .ident 0⟩], [], [], false, by decide⟩
  | 1 => ⟨1, fun _ => 0, [⟨.local 0, .ident 0, .ident 0⟩], [], [⟨0, .ident 0, 0⟩], false, by decide⟩
  | 2 => ⟨2, fun i => if i = 0 then 0 else 1, [], [0, 1], [], false, by decide⟩

/-- `c` exports the namespaces of `a` as `p` and of `b` as `q`; `d` and `e` export them as `z`, and `f` all of both. -/
def twoNamespaces : Graph 6
  | 0 | 1 => ⟨0, nofun, [], [], [], false, by decide⟩
  | 2 => ⟨2, fun i => if i = 0 then 0 else 1, [⟨.indirect 0, .star, .ident 1⟩, ⟨.indirect 1, .star, .ident 2⟩], [],
    [], false, by decide⟩
  | 3 => ⟨1, fun _ => 2, [⟨.indirect 0, .ident 1, .ident 3⟩], [], [], false, by decide⟩
  | 4 => ⟨1, fun _ => 2, [⟨.indirect 0, .ident 2, .ident 3⟩], [], [], false, by decide⟩
  | 5 => ⟨2, fun i => if i = 0 then 3 else 4, [], [0, 1], [], false, by decide⟩

theorem not_agrees
    (ends : jsResolveExport g fuel m exportName = some result) (differs : ¬Agrees g m exportName result) :
    ¬∃ result bound, (∀ fuel, bound < fuel → jsResolveExport g fuel m exportName = some result) ∧
      Agrees g m exportName result := by
  rintro ⟨result', bound, ends', agrees⟩
  have both := jsResolveExport_mono ends (Nat.le_max_left fuel (bound + 1))
  rw [ends' _ (by omega)] at both
  exact differs (some.inj both ▸ agrees)

end Modules
