import Partikle.Lib.ListHead

/-!
Hash tables whose chains are singly linked through the entries themselves. A table
is described by the set of its entries and the bucket of each; the operations are
stated on the `next` and `head` fields, so that any memory can be put under them.
-/

namespace HashChain

open Function List

variable {N : Type} {next other : N → Option N} {start : Option N} {nodes : List N} {node : N}

/-- Following `next` from `start` visits exactly these nodes and ends. -/
def Follows (next : N → Option N) : Option N → List N → Prop
  | start, [] => start = none
  | start, node :: rest => start = some node ∧ Follows next (next node) rest

def walk (next : N → Option N) : Nat → Option N → Option (List N)
  | 0, _ => none
  | _ + 1, none => some []
  | fuel + 1, some node => (walk next fuel (next node)).map (node :: ·)

theorem Follows.walk_eq {fuel : Nat} (follows : Follows next start nodes) (bound : nodes.length < fuel) :
    walk next fuel start = some nodes := by
  induction nodes generalizing start fuel with
  | nil =>
    obtain _ | rest := fuel
    · cases bound
    rw [show start = none from follows]
    rfl
  | cons node nodes ih =>
    obtain _ | rest := fuel
    · cases bound
    obtain ⟨rfl, behind⟩ := follows
    simp [walk, ih behind (Nat.lt_of_succ_lt_succ bound)]

theorem Follows.congr (follows : Follows next start nodes)
    (agree : ∀ node ∈ nodes, other node = next node) : Follows other start nodes := by
  induction nodes generalizing start with
  | nil => exact follows
  | cons node rest ih =>
    refine ⟨follows.1, ?_⟩
    rw [agree node (by simp)]
    exact ih follows.2 fun later member => agree later (.tail _ member)

theorem Follows.unique {nodes' : List N} (first : Follows next start nodes)
    (second : Follows next start nodes') : nodes = nodes' := by
  induction nodes generalizing start nodes' with
  | nil =>
    cases nodes' with
    | nil => rfl
    | cons node rest =>
      have absurd := first.symm.trans second.1
      cases absurd
  | cons node rest ih =>
    cases nodes' with
    | nil =>
      have absurd := second.symm.trans first.1
      cases absurd
    | cons node' rest' =>
      have same : node = node' := Option.some.inj (first.1.symm.trans second.1)
      subst same
      rw [ih first.2 second.2]

variable {before after : List N}

theorem Follows.behind (follows : Follows next start (before ++ node :: after)) :
    Follows next (some node) (node :: after) := by
  induction before generalizing start with
  | nil => exact ⟨rfl, follows.2⟩
  | cons first before ih => exact ih follows.2

theorem Follows.nodup (follows : Follows next start nodes) : nodes.Nodup := by
  induction nodes generalizing start with
  | nil => exact nodup_nil
  | cons node rest ih =>
    refine nodup_cons.mpr ⟨?_, ih follows.2⟩
    intro again
    obtain ⟨before, after, split⟩ := append_of_mem again
    have tail := follows.2
    rw [split] at tail
    have whole : Follows next (some node) (node :: rest) := ⟨rfl, follows.2⟩
    have same := tail.behind.unique whole
    have lengths := congrArg length same
    rw [split] at lengths
    simp at lengths
    omega

section Unlink

variable [DecidableEq N] {pred : N}

theorem Follows.unlink (follows : Follows next start (before ++ pred :: node :: after)) :
    Follows (update next pred (next node)) start (before ++ pred :: after) := by
  have unique := follows.nodup
  induction before generalizing start with
  | nil =>
    refine ⟨follows.1, ?_⟩
    rw [update_self]
    apply follows.2.2.congr
    intro later member
    have outside : pred ∉ node :: after := (nodup_cons.mp unique).1
    have different : later ≠ pred := fun same => outside (same ▸ .tail _ member)
    exact update_of_ne different _ _
  | cons first before ih =>
    have outside := (nodup_cons.mp unique).1
    have different : first ≠ pred := fun same => outside (by simp [same])
    refine ⟨follows.1, ?_⟩
    rw [update_of_ne different]
    exact ih follows.2 (nodup_cons.mp unique).2

end Unlink

/-- The chains of the first `size` buckets hold the entries, each in its own bucket. -/
structure IsTable (next : N → Option N) (head : Nat → Option N) (size : Nat) (bucket : N → Nat)
    (entry : N → Prop) : Prop where
  chains : ∀ b < size, ∃ nodes, Follows next (head b) nodes ∧
    ∀ node, node ∈ nodes ↔ entry node ∧ bucket node = b
  bounded : ∀ node, entry node → bucket node < size

variable {head head' : Nat → Option N} {size : Nat} {bucket bucket' : N → Nat} {entry entry' : N → Prop}

theorem IsTable.congr (table : IsTable next head size bucket entry) (same : ∀ node, entry' node ↔ entry node)
    (links : ∀ node, entry node → other node = next node) (heads : ∀ b < size, head' b = head b)
    (buckets : ∀ node, entry node → bucket' node = bucket node) : IsTable other head' size bucket' entry' := by
  constructor
  · intro b small
    obtain ⟨nodes, follows, members⟩ := table.chains b small
    refine ⟨nodes, ?_, ?_⟩
    · rw [heads b small]
      exact follows.congr fun node member => links node ((members node).mp member).1
    · intro node
      rw [members node, same node]
      constructor
      · rintro ⟨inside, place⟩
        exact ⟨inside, (buckets node inside).trans place⟩
      · rintro ⟨inside, place⟩
        exact ⟨inside, (buckets node inside).symm.trans place⟩
  · intro node inside
    have old := (same node).mp inside
    rw [buckets node old]
    exact table.bounded node old

theorem IsTable.of_iff (table : IsTable next head size bucket entry) (same : ∀ node, entry' node ↔ entry node) :
    IsTable next head size bucket entry' :=
  table.congr same (fun _ _ => rfl) (fun _ _ => rfl) fun _ _ => rfl

theorem isTable_empty (heads : ∀ b < size, head b = none) : IsTable next head size bucket fun _ => False := by
  constructor
  · intro b small
    exact ⟨[], heads b small, by simp⟩
  · intro node absurd
    exact absurd.elim

theorem IsTable.push (table : IsTable next head size bucket entry) (fresh : ¬entry node) (bound : bucket node < size)
    (link : other node = head (bucket node)) (links : ∀ old, entry old → other old = next old)
    (heads : ∀ b < size, head' b = if b = bucket node then some node else head b) :
    IsTable other head' size bucket fun old => entry old ∨ old = node := by
  constructor
  · intro b small
    obtain ⟨nodes, follows, members⟩ := table.chains b small
    have kept : Follows other (head b) nodes :=
      follows.congr fun old member => links old ((members old).mp member).1
    by_cases own : b = bucket node
    · subst own
      refine ⟨node :: nodes, ⟨by rw [heads _ small, if_pos rfl], by rwa [link]⟩, ?_⟩
      intro old
      rw [mem_cons, members old]
      constructor
      · rintro (same | ⟨inside, place⟩)
        · subst same
          exact ⟨.inr rfl, rfl⟩
        · exact ⟨.inl inside, place⟩
      · rintro ⟨inside | same, place⟩
        · exact .inr ⟨inside, place⟩
        · exact .inl same
    · refine ⟨nodes, by rwa [heads b small, if_neg own], ?_⟩
      intro old
      rw [members old]
      constructor
      · rintro ⟨inside, place⟩
        exact ⟨.inl inside, place⟩
      · rintro ⟨inside | same, place⟩
        · exact ⟨inside, place⟩
        · subst same
          exact absurd place.symm own
  · rintro old (inside | same)
    · exact table.bounded old inside
    · subst same
      exact bound

theorem IsTable.remove (table : IsTable next head size bucket entry)
    (chain : Follows next (head (bucket node)) (before ++ node :: after))
    (rest : Follows other (head' (bucket node)) (before ++ after))
    (links : ∀ old, entry old → bucket old ≠ bucket node → other old = next old)
    (heads : ∀ b < size, b ≠ bucket node → head' b = head b) :
    IsTable other head' size bucket fun old => entry old ∧ old ≠ node := by
  constructor
  · intro b small
    obtain ⟨nodes, follows, members⟩ := table.chains b small
    by_cases own : b = bucket node
    · subst own
      have same := follows.unique chain
      subst same
      refine ⟨before ++ after, rest, fun old => ?_⟩
      rw [ListHead.mem_unlinked follows.nodup, members old, and_right_comm]
    · refine ⟨nodes, ?_, ?_⟩
      · rw [heads b small own]
        refine follows.congr fun old member => ?_
        obtain ⟨isEntry, place⟩ := (members old).mp member
        exact links old isEntry (by rwa [place])
      · intro old
        rw [members old]
        constructor
        · rintro ⟨isEntry, place⟩
          refine ⟨⟨isEntry, ?_⟩, place⟩
          rintro rfl
          exact own place.symm
        · rintro ⟨⟨isEntry, -⟩, place⟩
          exact ⟨isEntry, place⟩
  · rintro old ⟨isEntry, -⟩
    exact table.bounded old isEntry

def place [DecidableEq N] (bucket : N → Nat) (state : (N → Option N) × (Nat → Option N)) (node : N) :
    (N → Option N) × (Nat → Option N) :=
  (update state.1 node (state.2 (bucket node)),
    update state.2 (bucket node) (some node))

theorem foldl_place_kept [DecidableEq N] (bucket : N → Nat) (new : List N) (state : (N → Option N) × (Nat → Option N))
    (node : N) (absent : node ∉ new) : (new.foldl (place bucket) state).1 node = state.1 node := by
  induction new generalizing state with
  | nil => rfl
  | cons first new ih =>
    simp only [mem_cons, not_or] at absent
    rw [foldl_cons, ih _ absent.2]
    simp [place, absent.1]

theorem IsTable.place_all [DecidableEq N] {state : (N → Option N) × (Nat → Option N)} {new : List N}
    (table : IsTable state.1 state.2 size bucket entry) (unique : new.Nodup) (apart : ∀ node ∈ new, ¬entry node)
    (bound : ∀ node ∈ new, bucket node < size) :
    IsTable (new.foldl (place bucket) state).1 (new.foldl (place bucket) state).2 size bucket
      (fun node => entry node ∨ node ∈ new) := by
  induction new generalizing state entry with
  | nil => simpa using table
  | cons node new ih =>
    obtain ⟨outside, unique⟩ := nodup_cons.mp unique
    have pushed : IsTable (place bucket state node).1 (place bucket state node).2 size bucket
        fun old => entry old ∨ old = node := by
      apply table.push (apart node (by simp)) (bound node (by simp))
      · simp [place]
      · intro old inside
        have other : old ≠ node := fun same => apart node (by simp) (same ▸ inside)
        simp [place, other]
      · intro b _
        by_cases own : b = bucket node
        · simp [place, own]
        · simp [place, own]
    have placed := ih pushed unique
      (by
        rintro later member (inside | same)
        · exact apart later (.tail _ member) inside
        · exact outside (same ▸ member))
      (fun later member => bound later (.tail _ member))
    refine placed.of_iff ?_
    intro old
    simp only [mem_cons, or_assoc]

theorem IsTable.exists_chains (table : IsTable next head size bucket entry) :
    ∃ chain : Nat → List N, (∀ b < size, Follows next (head b) (chain b)) ∧
      (∀ b < size, ∀ node, node ∈ chain b ↔ entry node ∧ bucket node = b) ∧ ((range size).flatMap chain).Nodup ∧
      ∀ node, node ∈ (range size).flatMap chain ↔ entry node := by
  choose chain follows members using table.chains
  refine ⟨fun b => if small : b < size then chain b small else [], ?_, ?_, ?_, ?_⟩
  · intro b small
    simpa [small] using follows b small
  · intro b small node
    simpa [small] using members b small node
  · rw [nodup_flatMap]
    refine ⟨?_, ?_⟩
    · intro b inside
      have small := mem_range.mp inside
      simpa [small] using (follows b small).nodup
    · apply Nodup.pairwise_of_forall_ne nodup_range
      intro b first c second different node inB inC
      have smallB := mem_range.mp first
      have smallC := mem_range.mp second
      simp only [smallB, smallC, ↓reduceDIte] at inB inC
      exact different (((members b _ node).mp inB).2.symm.trans ((members c _ node).mp inC).2)
  · intro node
    rw [mem_flatMap]
    constructor
    · rintro ⟨b, inside, member⟩
      have small := mem_range.mp inside
      simp only [small, ↓reduceDIte] at member
      exact ((members b _ node).mp member).1
    · intro isEntry
      have small := table.bounded node isEntry
      refine ⟨bucket node, mem_range.mpr small, ?_⟩
      simp only [small, ↓reduceDIte]
      exact (members _ small node).mpr ⟨isEntry, rfl⟩

end HashChain
