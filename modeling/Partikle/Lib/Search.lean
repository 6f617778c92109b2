import Mathlib.Data.Finset.Card
import Mathlib.Logic.Relation

/-!
A depth-first search that looks for one answer in a graph whose nodes are answers, forward to one node, or merge
several. Nodes that were visited before count as nothing, and two different answers end the search.
The outcome depends only on which answers can be reached.
-/

namespace Search

open List

inductive Node (N L : Type) where
  | leaf (answer : L)
  | forward (next : N)
  | merge (next : List N)

inductive Outcome (L : Type) where
  | found (answer : L)
  | nothing
  | seen
  | ambiguous

section Algorithm

variable {N L : Type} (same : L → L → Bool)

def mergeAll (visit : N → List N → Option (Outcome L × List N)) :
    List N → Option L → List N → Option (Outcome L × List N)
  | [], none, visited => some (.nothing, visited)
  | [], some answer, visited => some (.found answer, visited)
  | next :: rest, best, visited =>
    match visit next visited with
    | none => none
    | some (.ambiguous, visited) => some (.ambiguous, visited)
    | some (.found answer, visited) =>
      match best with
      | none => mergeAll visit rest (some answer) visited
      | some first =>
        if same first answer then mergeAll visit rest (some first) visited else some (.ambiguous, visited)
    | some (.nothing, visited) | some (.seen, visited) => mergeAll visit rest best visited

variable [DecidableEq N] (expand : N → Node N L)

def search : Nat → N → List N → Option (Outcome L × List N)
  | 0, _, _ => none
  | fuel + 1, node, visited =>
    if node ∈ visited then some (.seen, visited)
    else
      match expand node with
      | .leaf answer => some (.found answer, visited ++ [node])
      | .forward next => search fuel next (visited ++ [node])
      | .merge next => mergeAll same (search fuel) next none (visited ++ [node])

end Algorithm

section Reachability

variable {N L : Type} (expand : N → Node N L)

def Edge (source target : N) : Prop :=
  expand source = .forward target ∨ ∃ next, expand source = .merge next ∧ target ∈ next

abbrev Reaches : N → N → Prop := Relation.ReflTransGen (Edge expand)

def Answers (node : N) (answer : L) : Prop := ∃ leaf, Reaches expand node leaf ∧ expand leaf = .leaf answer

end Reachability

section Correct

variable {N L K : Type} {expand : N → Node N L} {key : L → K} {answer : L} {start : N} {result : Outcome L × List N}

theorem answers_leaf {node : N} {other : L} (leaf : expand node = .leaf answer) :
    Answers expand node other ↔ other = answer := by
  constructor
  · rintro ⟨last, reaches, isLeaf⟩
    rcases Relation.ReflTransGen.cases_head reaches with rfl | ⟨next, edge, -⟩
    · rw [leaf] at isLeaf
      cases isLeaf
      rfl
    · simp [Edge, leaf] at edge
  · rintro rfl
    exact ⟨node, .refl, leaf⟩

def Node.answer? : Node N L → Option L
  | .leaf answer => some answer
  | .forward _ | .merge _ => none

theorem Node.answer?_eq_some {node : Node N L} : node.answer? = some answer ↔ node = .leaf answer := by
  cases node <;> simp [Node.answer?]

def answersOf (expand : N → Node N L) (nodes : List N) : List L := nodes.filterMap fun node => (expand node).answer?

theorem answersOf_append (first rest : List N) :
    answersOf expand (first ++ rest) = answersOf expand first ++ answersOf expand rest :=
  filterMap_append

theorem mem_answersOf {nodes : List N} :
    answer ∈ answersOf expand nodes ↔ ∃ leaf ∈ nodes, expand leaf = .leaf answer := by
  simp [answersOf, Node.answer?_eq_some]

def Tells (key : L → K) (answers : List L) : Outcome L → Prop
  | .found answer => answer ∈ answers ∧ ∀ other ∈ answers, key other = key answer
  | .nothing | .seen => answers = []
  | .ambiguous => ∃ answer ∈ answers, ∃ other ∈ answers, key answer ≠ key other

variable {node : N} {outcome : Outcome L} {visited new starts visited' : List N}
  {visit : N → List N → Option (Outcome L × List N)} {best : Option L} {same : L → L → Bool} {fuel : Nat}

theorem Tells.grow {answers more : List L} (told : Tells key answers .ambiguous)
    (sub : ∀ answer ∈ answers, answer ∈ more) : Tells key more .ambiguous := by
  obtain ⟨answer, member, other, member', differ⟩ := told
  exact ⟨answer, sub answer member, other, sub other member', differ⟩

theorem Tells.more {first : L} {rest : List L} (others : List L) (told : Tells key (first :: rest) outcome)
    (there : first ∈ others) (same : ∀ other ∈ others, key other = key first) : Tells key (others ++ rest) outcome := by
  have grows : ∀ answer ∈ first :: rest, answer ∈ others ++ rest := by
    intro answer member
    rcases mem_cons.mp member with rfl | later
    · exact mem_append_left _ there
    · exact mem_append_right _ later
  cases outcome with
  | found answer =>
    obtain ⟨member, all⟩ := told
    refine ⟨grows answer member, fun other there' => ?_⟩
    rcases mem_append.mp there' with before | later
    · exact (same other before).trans (all first (.head _))
    · exact all other (.tail _ later)
  | nothing | seen => cases told
  | ambiguous => exact told.grow grows

/-- What a search from some nodes has done once it has ended with this outcome. -/
structure Explored (expand : N → Node N L) (starts visited new : List N) (outcome : Outcome L) : Prop where
  reached : ∀ node ∈ new, ∃ start ∈ starts, Reaches expand start node
  there : outcome ≠ .ambiguous → ∀ start ∈ starts, start ∈ visited ++ new
  closed : outcome ≠ .ambiguous → ∀ source ∈ new, ∀ target, Edge expand source target → target ∈ visited ++ new

theorem Explored.append {rest more : List N} {outcome' : Outcome L}
    (first : Explored expand [start] visited new outcome) (met : outcome ≠ .ambiguous)
    (later : Explored expand rest (visited ++ new) more outcome') :
    Explored expand (start :: rest) visited (new ++ more) outcome' := by
  constructor
  · intro node there
    rcases mem_append.mp there with before | after
    · obtain ⟨start', member, reaches⟩ := first.reached node before
      rw [mem_singleton.mp member] at reaches
      exact ⟨start, .head _, reaches⟩
    · obtain ⟨start', member, reaches⟩ := later.reached node after
      exact ⟨start', .tail _ member, reaches⟩
  · intro ended start' member
    rw [← append_assoc]
    rcases mem_cons.mp member with rfl | member
    · exact mem_append_left _ (first.there met _ (mem_singleton_self _))
    · exact later.there ended start' member
  · intro ended source there target edge
    rw [← append_assoc]
    rcases mem_append.mp there with before | after
    · exact mem_append_left _ (first.closed met source before target edge)
    · exact later.closed ended source after target edge

theorem Explored.stop {rest : List N}
    (first : Explored expand [start] visited new .ambiguous) :
    Explored expand (start :: rest) visited new .ambiguous := by
  refine ⟨fun node there => ?_, fun ended => absurd rfl ended, fun ended => absurd rfl ended⟩
  obtain ⟨start', member, reaches⟩ := first.reached node there
  rw [mem_singleton.mp member] at reaches
  exact ⟨start, .head _, reaches⟩

def sameKey [DecidableEq K] (key : L → K) (first answer : L) : Bool := decide (key first = key answer)

theorem mergeAll_spec [DecidableEq K]
    (visits : ∀ node visited outcome visited', visit node visited = some (outcome, visited') →
      ∃ new, visited' = visited ++ new ∧ Explored expand [node] visited new outcome ∧
        Tells key (answersOf expand new) outcome)
    (ends : mergeAll (sameKey key) visit starts best visited = some (outcome, visited')) :
    ∃ new, visited' = visited ++ new ∧ Explored expand starts visited new outcome ∧
      Tells key (best.toList ++ answersOf expand new) outcome := by
  induction starts generalizing best visited with
  | nil =>
    have nothingNew : Explored expand [] visited [] outcome := ⟨by simp, by simp, by simp⟩
    cases best with
    | none | some _ =>
      cases ends
      exact ⟨[], by simp, nothingNew, by simp [Tells, answersOf]⟩
  | cons start rest ih =>
    unfold mergeAll at ends
    cases first : visit start visited with
    | none => simp [first] at ends
    | some result =>
      obtain ⟨outcome₁, visited₁⟩ := result
      obtain ⟨new, rfl, explored, told⟩ := visits start visited outcome₁ visited₁ first
      rw [first] at ends
      cases outcome₁ with
      | ambiguous =>
        cases ends
        exact ⟨new, rfl, explored.stop, told.grow fun _ there => mem_append_right _ there⟩
      | found answer =>
        cases best with
        | none =>
          obtain ⟨more, rfl, explored', told'⟩ := ih ends
          refine ⟨new ++ more, append_assoc .., explored.append nofun explored', ?_⟩
          rw [answersOf_append]
          exact Tells.more (answersOf expand new) told' told.1 told.2
        | some best =>
          by_cases same : key best = key answer
          · simp only [sameKey, same, decide_true, if_true] at ends
            obtain ⟨more, rfl, explored', told'⟩ := ih ends
            refine ⟨new ++ more, append_assoc .., explored.append nofun explored', ?_⟩
            rw [answersOf_append]
            apply Tells.more (best :: answersOf expand new) told' (mem_cons_self ..)
            intro other there
            rcases mem_cons.mp there with rfl | there
            · rfl
            · exact (told.2 other there).trans same.symm
          · simp only [sameKey, same, decide_false, Bool.false_eq_true, if_false] at ends
            cases ends
            refine ⟨new, rfl, Explored.stop ⟨explored.reached, nofun, nofun⟩, ?_⟩
            exact ⟨best, .head _, answer, .tail _ told.1, same⟩
      | nothing | seen =>
        obtain ⟨more, rfl, explored', told'⟩ := ih ends
        refine ⟨new ++ more, append_assoc .., explored.append nofun explored', ?_⟩
        rwa [answersOf_append, show answersOf expand new = [] from told]

theorem mergeAll_total (base : List N)
    (visits : ∀ node ∈ starts, ∀ visited, base ⊆ visited →
      ∃ outcome visited', visit node visited = some (outcome, visited') ∧ visited ⊆ visited')
    (grown : base ⊆ visited) : ∃ result, mergeAll same visit starts best visited = some result := by
  induction starts generalizing best visited with
  | nil => cases best <;> exact ⟨_, rfl⟩
  | cons start rest ih =>
    obtain ⟨outcome, visited', ends, grows⟩ := visits start (.head _) visited grown
    have later : ∀ best, ∃ result, mergeAll same visit rest best visited' = some result := fun best =>
      ih (fun node there => visits node (.tail _ there)) (List.Subset.trans grown grows)
    unfold mergeAll
    rw [ends]
    cases outcome with
    | ambiguous => exact ⟨_, rfl⟩
    | nothing | seen => exact later best
    | found answer =>
      cases best with
      | none => exact later (some answer)
      | some first =>
        simp only
        split
        · exact later (some first)
        · exact ⟨_, rfl⟩

theorem mergeAll_mono {visit' : N → List N → Option (Outcome L × List N)}
    (more : ∀ node visited result, visit node visited = some result → visit' node visited = some result)
    (ends : mergeAll same visit starts best visited = some result) :
    mergeAll same visit' starts best visited = some result := by
  induction starts generalizing best visited with
  | nil => cases best <;> exact ends
  | cons start rest ih =>
    unfold mergeAll at ends ⊢
    cases first : visit start visited with
    | none => simp [first] at ends
    | some step =>
      rw [first] at ends
      rw [more start visited step first]
      obtain ⟨outcome, visited'⟩ := step
      cases outcome with
      | ambiguous => exact ends
      | nothing | seen => exact ih ends
      | found answer =>
        cases best with
        | none => exact ih ends
        | some best =>
          simp only at ends ⊢
          split at ends
          · next equal =>
              rw [if_pos equal]
              exact ih ends
          · next different => rwa [if_neg different]

theorem Explored.under (edges : ∀ target, Edge expand node target ↔ target ∈ starts)
    (behind : Explored expand starts (visited ++ [node]) new outcome) :
    Explored expand [node] visited (node :: new) outcome := by
  have shift : visited ++ [node] ++ new = visited ++ node :: new := by simp
  constructor
  · intro node' there
    refine ⟨node, mem_singleton_self _, ?_⟩
    rcases mem_cons.mp there with rfl | later
    · exact .refl
    · obtain ⟨start, member, reaches⟩ := behind.reached node' later
      exact .head ((edges start).mpr member) reaches
  · intro _ start member
    rw [mem_singleton.mp member]
    simp
  · intro ended source there target edge
    rw [← shift]
    rcases mem_cons.mp there with rfl | later
    · exact behind.there ended target ((edges target).mp edge)
    · exact behind.closed ended source later target edge

variable [DecidableEq N] [DecidableEq K]

theorem search_explores (ends : search (sameKey key) expand fuel node visited = some (outcome, visited')) :
    ∃ new, visited' = visited ++ new ∧ Explored expand [node] visited new outcome ∧
      Tells key (answersOf expand new) outcome := by
  induction fuel generalizing node visited visited' outcome with
  | zero => cases ends
  | succ fuel ih =>
    unfold search at ends
    by_cases before : node ∈ visited
    · rw [if_pos before] at ends
      cases ends
      refine ⟨[], by simp, ⟨by simp, fun _ start member => ?_, by simp⟩, rfl⟩
      rw [mem_singleton.mp member]
      exact mem_append_left _ before
    · rw [if_neg before] at ends
      cases is : expand node with
      | leaf answer =>
        rw [is] at ends
        cases ends
        have edges : ∀ target, Edge expand node target ↔ target ∈ [] := by simp [Edge, is]
        refine ⟨[node], rfl, Explored.under edges ⟨by simp, by simp, by simp⟩, ?_⟩
        simp [Tells, answersOf, is, Node.answer?]
      | forward next =>
        rw [is] at ends
        obtain ⟨new, rfl, explored, told⟩ := ih ends
        have edges : ∀ target, Edge expand node target ↔ target ∈ [next] := by simp [Edge, is, eq_comm]
        refine ⟨node :: new, by simp, Explored.under edges explored, ?_⟩
        simpa [answersOf, is, Node.answer?] using told
      | merge next =>
        rw [is] at ends
        obtain ⟨new, rfl, explored, told⟩ := mergeAll_spec (fun _ _ _ _ => ih) ends
        have edges : ∀ target, Edge expand node target ↔ target ∈ next := by simp [Edge, is]
        refine ⟨node :: new, by simp, Explored.under edges explored, ?_⟩
        simpa [answersOf, is, Node.answer?] using told

/-- What the outcome of a whole search says about the answers that can be reached. -/
def Decides (expand : N → Node N L) (key : L → K) (node : N) : Outcome L → Prop
  | .found answer => Answers expand node answer ∧ ∀ other, Answers expand node other → key other = key answer
  | .nothing | .seen => ∀ answer, ¬Answers expand node answer
  | .ambiguous => ∃ answer other, Answers expand node answer ∧ Answers expand node other ∧ key answer ≠ key other

theorem search_decides (ends : search (sameKey key) expand fuel node [] = some (outcome, visited')) :
    Decides expand key node outcome := by
  obtain ⟨new, -, explored, told⟩ := search_explores ends
  have met : ∀ answer ∈ answersOf expand new, Answers expand node answer := by
    intro answer there
    obtain ⟨leaf, member, is⟩ := mem_answersOf.mp there
    obtain ⟨start, isStart, reaches⟩ := explored.reached leaf member
    rw [mem_singleton.mp isStart] at reaches
    exact ⟨leaf, reaches, is⟩
  have all : outcome ≠ .ambiguous → ∀ answer, Answers expand node answer → answer ∈ answersOf expand new := by
    rintro ended answer ⟨leaf, reaches, is⟩
    have visited : ∀ node', Reaches expand node node' → node' ∈ new := by
      intro node' reaches
      induction reaches with
      | refl => exact explored.there ended node (mem_singleton_self _)
      | tail _ edge member => exact explored.closed ended _ member _ edge
    exact mem_answersOf.mpr ⟨leaf, visited leaf reaches, is⟩
  cases outcome with
  | found answer => exact ⟨met answer told.1, fun other reached => told.2 other (all nofun other reached)⟩
  | nothing | seen =>
    intro answer reached
    have member := all nofun answer reached
    simp [show answersOf expand new = [] from told] at member
  | ambiguous =>
    obtain ⟨answer, member, other, member', differ⟩ := told
    exact ⟨answer, other, met answer member, met other member', differ⟩

/-! Nothing is visited twice, so that a search in finitely many nodes ends. -/

theorem search_total (key : L → K) {all : Finset N}
    (closed : ∀ source ∈ all, ∀ target, Edge expand source target → target ∈ all)
    (member : node ∈ all) (enough : (all \ visited.toFinset).card < fuel) :
    ∃ result, search (sameKey key) expand fuel node visited = some result := by
  induction fuel generalizing node visited with
  | zero => exact absurd enough (Nat.not_lt_zero _)
  | succ fuel ih =>
    unfold search
    by_cases before : node ∈ visited
    · rw [if_pos before]
      exact ⟨_, rfl⟩
    · rw [if_neg before]
      have fewer : (all \ (visited ++ [node]).toFinset).card < fuel := by
        have smaller : all \ (visited ++ [node]).toFinset ⊂ all \ visited.toFinset := by
          refine Finset.ssubset_iff_of_subset (fun x there => ?_) |>.mpr ⟨node, by simp [member, before], by simp⟩
          simp only [Finset.mem_sdiff, mem_toFinset, mem_append, not_or] at there ⊢
          exact ⟨there.1, there.2.1⟩
        have := Finset.card_lt_card smaller
        omega
      cases is : expand node with
      | leaf answer => exact ⟨_, rfl⟩
      | forward next => exact ih (closed node member next (.inl is)) fewer
      | merge next =>
        refine mergeAll_total (visited ++ [node]) (fun node' there visited' grown => ?_) (List.Subset.refl _)
        have enough' : (all \ visited'.toFinset).card < fuel := by
          refine (Finset.card_le_card ?_).trans_lt fewer
          refine Finset.sdiff_subset_sdiff (Finset.Subset.refl _) fun x there => ?_
          rw [mem_toFinset] at there ⊢
          exact grown there
        obtain ⟨⟨outcome, visited''⟩, ends⟩ := ih (closed node member node' (.inr ⟨next, is, there⟩)) enough'
        obtain ⟨new, rfl, -⟩ := search_explores ends
        exact ⟨outcome, _, ends, subset_append_left _ _⟩

theorem search_mono {fuel' : Nat} (ends : search same expand fuel node visited = some result) (le : fuel ≤ fuel') :
    search same expand fuel' node visited = some result := by
  induction fuel generalizing fuel' node visited result with
  | zero => cases ends
  | succ fuel ih =>
    obtain ⟨fuel', rfl⟩ := Nat.exists_eq_add_of_le' ((Nat.succ_pos fuel).trans_le le)
    have le' : fuel ≤ fuel' := Nat.succ_le_succ_iff.mp le
    unfold search at ends ⊢
    by_cases before : node ∈ visited
    · rw [if_pos before] at ends ⊢
      exact ends
    · rw [if_neg before] at ends ⊢
      cases is : expand node with
      | leaf answer => simpa [is] using ends
      | forward next =>
        rw [is] at ends
        exact ih ends le'
      | merge next =>
        rw [is] at ends
        exact mergeAll_mono (fun _ _ _ visit => ih visit le') ends

end Correct

end Search
