import Mathlib.Data.Set.Card
import Mathlib.Logic.Relation

/-!
Depth-first traversal of a graph that is given by the list of successors of each node, beside nodes that have been
seen before. A traversal is a pair of lists: the new nodes in the order in which they are entered and in the order
in which they are left. It may have room for some nested visits only, and stop at bad nodes.
-/

namespace Dfs

open List

variable {N : Type} (next : N → List N)

def Edge (source target : N) : Prop := target ∈ next source

abbrev Reaches : N → N → Prop := Relation.ReflTransGen (Edge next)

/-- Each node reaches the other one: they are in the same strongly connected component. -/
def Mutual (first second : N) : Prop := Reaches next first second ∧ Reaches next second first

inductive Traverses : Set N → List N → List N → List N → Prop
  | nil (seen : Set N) : Traverses seen [] [] []
  | skip {seen : Set N} {node : N} {rest pre post : List N} (old : node ∈ seen)
      (later : Traverses seen rest pre post) : Traverses seen (node :: rest) pre post
  | visit {seen : Set N} {node : N} {rest pre post pre' post' : List N} (new : node ∉ seen)
      (below : Traverses (insert node seen) (next node) pre post)
      (later : Traverses (insert node seen ∪ {x | x ∈ pre}) rest pre' post') :
      Traverses seen (node :: rest) (node :: pre ++ pre') (post ++ node :: post')

section

variable (bad : Set N)

/-- A traversal that meets no bad node and in which every node that is come to, seen or not, is within the frames. -/
inductive Goes : Nat → Set N → List N → List N → List N → Prop
  | nil (frames : Nat) (seen : Set N) : Goes frames seen [] [] []
  | skip {frames : Nat} {seen : Set N} {node : N} {rest pre post : List N} (old : node ∈ seen) (good : node ∉ bad)
      (later : Goes (frames + 1) seen rest pre post) : Goes (frames + 1) seen (node :: rest) pre post
  | visit {frames : Nat} {seen : Set N} {node : N} {rest pre post pre' post' : List N} (new : node ∉ seen)
      (below : Goes frames (insert node seen) (next node) pre post)
      (later : Goes (frames + 1) (insert node seen ∪ {x | x ∈ pre}) rest pre' post') :
      Goes (frames + 1) seen (node :: rest) (node :: pre ++ pre') (post ++ node :: post')

inductive Stop (N : Type)
  | deep
  | bad (node : N)
  | last (node : N)

/-- A traversal that stops once exactly these nodes have been left, in this order: there is no frame for the next node,
the next node is bad, or leaving the last one ends it. -/
inductive Stops : Nat → Set N → List N → List N → Stop N → Prop
  | deep {seen : Set N} {node : N} {rest : List N} : Stops 0 seen (node :: rest) [] .deep
  | bad {frames : Nat} {seen : Set N} {node : N} {rest : List N} (is : node ∈ bad) :
      Stops (frames + 1) seen (node :: rest) [] (.bad node)
  | inside {frames : Nat} {seen : Set N} {node : N} {rest done : List N} {stop : Stop N} (new : node ∉ seen)
      (below : Stops frames (insert node seen) (next node) done stop) : Stops (frames + 1) seen (node :: rest) done stop
  | last {frames : Nat} {seen : Set N} {node : N} {rest pre post : List N} (new : node ∉ seen)
      (below : Goes next bad frames (insert node seen) (next node) pre post) :
      Stops (frames + 1) seen (node :: rest) (post ++ [node]) (.last node)
  | later {frames : Nat} {seen : Set N} {node : N} {rest pre post done : List N} {stop : Stop N}
      (first : Goes next bad frames seen [node] pre post) (later : Stops frames (seen ∪ {x | x ∈ pre}) rest done stop) :
      Stops frames seen (node :: rest) (post ++ done) stop

end

variable {next} {seen : Set N} {node : N} {starts rest pre post pre' post' : List N}

theorem Traverses.unique (first : Traverses next seen starts pre post)
    (second : Traverses next seen starts pre' post') : pre = pre' ∧ post = post' := by
  induction first generalizing pre' post' with
  | nil seen =>
    cases second
    exact ⟨rfl, rfl⟩
  | skip old _ ih =>
    cases second with
    | skip _ later => exact ih later
    | visit new => exact absurd old new
  | visit new _ _ ihBelow ihLater =>
    cases second with
    | skip old => exact absurd old new
    | visit _ below later =>
      obtain ⟨rfl, rfl⟩ := ihBelow below
      obtain ⟨rfl, rfl⟩ := ihLater later
      exact ⟨rfl, rfl⟩

theorem union_visited (pre : List N) : seen ∪ {x | x ∈ node :: pre} = insert node seen ∪ {x | x ∈ pre} := by
  ext x
  simp only [Set.mem_union, Set.mem_ofPred_eq, Set.mem_insert_iff, mem_cons]
  tauto

theorem Traverses.split (traverses : Traverses next seen (node :: rest) pre post) :
    ∃ pre1 post1 pre2 post2, Traverses next seen [node] pre1 post1 ∧
      Traverses next (seen ∪ {x | x ∈ pre1}) rest pre2 post2 ∧ pre = pre1 ++ pre2 ∧ post = post1 ++ post2 := by
  cases traverses with
  | skip old later => exact ⟨[], [], pre, post, .skip old (.nil _), by simpa using later, rfl, rfl⟩
  | @visit _ _ _ pre1 post1 pre2 post2 new below later =>
    have alone := Traverses.visit new below (.nil _)
    rw [append_nil] at alone
    refine ⟨node :: pre1, post1 ++ [node], pre2, post2, alone, ?_, rfl, by simp⟩
    rwa [union_visited]

section

variable {bad : Set N} {frames : Nat} {done : List N} {stop : Stop N}

theorem Goes.traverses (goes : Goes next bad frames seen starts pre post) : Traverses next seen starts pre post := by
  induction goes with
  | nil _ seen => exact .nil seen
  | skip old _ _ ih => exact .skip old ih
  | visit new _ _ below later => exact .visit new below later

theorem Goes.cons (first : Goes next bad frames seen [node] pre post)
    (second : Goes next bad frames (seen ∪ {x | x ∈ pre}) rest pre' post') :
    Goes next bad frames seen (node :: rest) (pre ++ pre') (post ++ post') := by
  cases first with
  | skip old good later =>
    cases later
    exact .skip old good (by simpa using second)
  | visit new below later =>
    cases later
    rw [append_nil, union_visited] at second
    simpa using Goes.visit new below second

theorem Stops.head (stops : Stops next bad frames seen [node] done stop) :
    Stops next bad frames seen (node :: rest) done stop := by
  cases stops with
  | deep => exact .deep
  | bad is => exact .bad is
  | inside new below => exact .inside new below
  | last new below => exact .last new below
  | later _ later => cases later

/-- What has been left is the beginning of the traversal that does not stop. -/
theorem Stops.beginning (stops : Stops next bad frames seen starts done stop)
    (traverses : Traverses next seen starts pre post) : done <+: post := by
  induction stops generalizing pre post with
  | deep | bad => exact nil_prefix
  | inside new _ ih =>
    cases traverses with
    | skip old => exact absurd old new
    | visit _ below _ => exact (ih below).trans (prefix_append _ _)
  | last new below =>
    cases traverses with
    | skip old => exact absurd old new
    | visit _ below' _ =>
      obtain ⟨-, rfl⟩ := below.traverses.unique below'
      exact (prefix_append_right_inj _).mpr (by simp)
  | later first _ ih =>
    obtain ⟨pre1, post1, pre2, post2, alone, later, -, rfl⟩ := traverses.split
    obtain ⟨rfl, rfl⟩ := first.traverses.unique alone
    exact (prefix_append_right_inj _).mpr (ih later)

end

theorem Traverses.perm (traverses : Traverses next seen starts pre post) :
    pre.Perm post ∧ pre.Nodup ∧ ∀ x ∈ pre, x ∉ seen := by
  induction traverses with
  | nil seen => exact ⟨.refl _, .nil, by simp⟩
  | skip _ _ ih => exact ih
  | @visit seen node rest pre1 post1 pre2 post2 new _ _ ihBelow ihLater =>
    obtain ⟨permBelow, distinctBelow, freshBelow⟩ := ihBelow
    obtain ⟨permLater, distinctLater, freshLater⟩ := ihLater
    refine ⟨?_, ?_, ?_⟩
    · calc node :: pre1 ++ pre2
        _ |>.Perm (node :: (post1 ++ post2)) := (permBelow.append permLater).cons node
        _ |>.Perm (post1 ++ node :: post2) := perm_middle.symm
    · rw [cons_append, nodup_cons, nodup_append]
      refine ⟨?_, distinctBelow, distinctLater, ?_⟩
      · intro again
        rcases mem_append.mp again with early | late
        · exact freshBelow node early (Set.mem_insert _ _)
        · exact freshLater node late (.inl (Set.mem_insert _ _))
      · rintro x early y late rfl
        exact freshLater x late (.inr early)
    · intro x member
      rw [cons_append, mem_cons, mem_append] at member
      rcases member with rfl | early | late
      · exact new
      · exact fun old => freshBelow x early (Set.mem_insert_of_mem _ old)
      · exact fun old => freshLater x late (.inl (Set.mem_insert_of_mem _ old))

theorem Traverses.covers (traverses : Traverses next seen starts pre post) :
    ∀ start ∈ starts, start ∈ seen ∨ start ∈ pre := by
  induction traverses with
  | nil seen => simp
  | skip old _ ih =>
    intro start inside
    rcases mem_cons.mp inside with rfl | later
    · exact .inl old
    · exact ih start later
  | visit _ _ _ _ ih =>
    intro start inside
    simp only [cons_append, mem_cons, mem_append]
    rcases mem_cons.mp inside with rfl | later
    · exact .inr (.inl rfl)
    · rcases ih start later with old | new
      · rcases old with (same | old) | early
        · exact .inr (.inl same)
        · exact .inl old
        · exact .inr (.inr (.inl early))
      · exact .inr (.inr (.inr new))

theorem Traverses.reaches (traverses : Traverses next seen starts pre post) :
    ∀ x ∈ pre, ∃ start ∈ starts, Reaches next start x := by
  induction traverses with
  | nil seen => simp
  | skip _ _ ih =>
    intro x member
    obtain ⟨start, inside, reach⟩ := ih x member
    exact ⟨start, .tail _ inside, reach⟩
  | @visit seen node rest pre1 post1 pre2 post2 _ _ _ ihBelow ihLater =>
    intro x member
    rw [cons_append, mem_cons, mem_append] at member
    rcases member with rfl | early | late
    · exact ⟨x, by simp, .refl⟩
    · obtain ⟨start, inside, reach⟩ := ihBelow x early
      exact ⟨node, by simp, .head inside reach⟩
    · obtain ⟨start, inside, reach⟩ := ihLater x late
      exact ⟨start, .tail _ inside, reach⟩

theorem traverses_total [Finite N] (seen : Set N) (starts : List N) :
    ∃ pre post, Traverses next seen starts pre post := by
  generalize unseen : (Set.univ \ seen).ncard = size
  induction size using Nat.strongRecOn generalizing seen starts with
  | ind size ih =>
    induction starts with
    | nil => exact ⟨[], [], .nil seen⟩
    | cons node rest ihRest =>
      by_cases old : node ∈ seen
      · obtain ⟨pre, post, later⟩ := ihRest
        exact ⟨pre, post, .skip old later⟩
      · have smaller : ∀ more : Set N, (Set.univ \ (insert node seen ∪ more)).ncard < size := by
          intro more
          rw [← unseen]
          refine Set.ncard_lt_ncard ?_ (Set.toFinite _)
          rw [Set.ssubset_iff_of_subset]
          · exact ⟨node, ⟨trivial, old⟩, fun left => left.2 (.inl (Set.mem_insert _ _))⟩
          · exact fun x left => ⟨trivial, fun inside => left.2 (.inl (Set.mem_insert_of_mem _ inside))⟩
        have first := smaller ∅
        rw [Set.union_empty] at first
        obtain ⟨pre, post, below⟩ := ih _ first (insert node seen) (next node) rfl
        obtain ⟨pre', post', later⟩ := ih _ (smaller {x | x ∈ pre}) _ rest rfl
        exact ⟨_, _, .visit old below later⟩

theorem reaches_closed {inside : N → Prop} (closed : ∀ x y, inside x → Edge next x y → inside y) {x y : N}
    (here : inside x) (reach : Reaches next x y) : inside y := by
  induction reach with
  | refl => exact here
  | tail _ edge ih => exact closed _ _ ih edge

end Dfs
