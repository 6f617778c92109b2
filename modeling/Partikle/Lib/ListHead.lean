import Mathlib.Data.List.Basic
import Mathlib.Data.List.Nodup
import Mathlib.Logic.Function.Basic

/-!
Circular doubly linked lists threaded through link cells, as `list.h` has them,
together with their view as plain sequences. A node is the address of a link
cell; the head of a list is such a cell too. The operations only write link
fields, so all facts about several lists in one memory are stated here once.
-/

namespace ListHead

open Function List Option

/-- The `next` and `prev` fields of every link cell, `none` standing for `NULL`. -/
structure Links (N : Type) where
  next : N → Option N
  prev : N → Option N

variable {N : Type}

/-- Following `field` from `first` visits `middle` in order and then arrives at `last`. -/
def Chain (field : N → Option N) (first : N) : List N → N → Prop
  | [], last => field first = some last
  | node :: rest, last => field first = some node ∧ Chain field node rest last

/-- The list with head cell `head` holds the nodes `nodes`, in this order. -/
structure IsList (links : Links N) (head : N) (nodes : List N) : Prop where
  nodup : (head :: nodes).Nodup
  forward : Chain links.next head nodes head
  backward : Chain links.prev head nodes.reverse head

def Links.flip (links : Links N) : Links N := ⟨links.prev, links.next⟩

variable {links : Links N} {head first last el : N} {nodes middle before after others : List N} {field : N → Option N}

theorem IsList.flip (list : IsList links head nodes) : IsList links.flip head nodes.reverse := by
  refine ⟨?_, list.backward, by simpa [Links.flip] using list.forward⟩
  simpa using list.nodup

theorem chain_append (field : N → Option N) (first node last : N) (left right : List N) :
    Chain field first (left ++ node :: right) last ↔ Chain field first left node ∧ Chain field node right last := by
  induction left generalizing first with
  | nil => rfl
  | cons head rest ih => simp [Chain, ih, and_assoc]

theorem chain_congr {other : N → Option N} (agree : ∀ node ∈ first :: middle, other node = field node)
    (chain : Chain field first middle last) : Chain other first middle last := by
  induction middle generalizing first with
  | nil => simpa [Chain, agree first (by simp)] using chain
  | cons node rest ih =>
    refine ⟨by simpa [agree first (by simp)] using chain.1, ih ?_ chain.2⟩
    intro member belongs
    exact agree member (mem_cons_of_mem _ belongs)

theorem chain_restart {other : N → Option N} {entry : N} (start : other entry = field first)
    (agree : ∀ node ∈ middle, other node = field node) (chain : Chain field first middle last) :
    Chain other entry middle last := by
  cases middle with
  | nil => simpa [Chain, start] using chain
  | cons node rest => exact ⟨by rw [start]; exact chain.1, chain_congr agree chain.2⟩

theorem chain_reverse_first (chain : Chain field head nodes.reverse last) :
    field head = some ((last :: nodes).getLast (by simp)) := by
  rcases eq_nil_or_concat nodes with empty | ⟨front, final, equal⟩
  · subst empty
    simpa [Chain] using chain
  · subst equal
    have reversed : (front ++ [final]).reverse = final :: front.reverse := by simp
    rw [concat_eq_append, reversed] at chain
    have parts := chain.1
    simpa using parts

theorem chain_unique {middle' : List N} (chain : Chain field first middle last)
    (chain' : Chain field first middle' last) (outside : last ∉ middle) (outside' : last ∉ middle') :
    middle = middle' := by
  induction middle generalizing first middle' with
  | nil =>
    cases middle' with
    | nil => rfl
    | cons node rest =>
      have same : last = node := some.inj (chain.symm.trans chain'.1)
      exact absurd (by simp [same]) outside'
  | cons node rest ih =>
    cases middle' with
    | nil =>
      have same : node = last := some.inj (chain.1.symm.trans chain')
      exact absurd (by simp [same]) outside
    | cons node' rest' =>
      have same : node = node' := some.inj (chain.1.symm.trans chain'.1)
      subst same
      rw [ih chain.2 chain'.2 (fun inside => outside (mem_cons_of_mem _ inside))
        (fun inside => outside' (mem_cons_of_mem _ inside))]

theorem IsList.unique {nodes' : List N} (list : IsList links head nodes)
    (list' : IsList links head nodes') : nodes = nodes' :=
  chain_unique list.forward list'.forward (nodup_cons.mp list.nodup).1 (nodup_cons.mp list'.nodup).1

theorem mem_unlinked {el node : N} {before after : List N} (unique : (before ++ el :: after).Nodup) :
    node ∈ before ++ after ↔ node ∈ before ++ el :: after ∧ node ≠ el := by
  have outside := (nodup_cons.mp (nodup_middle.mp unique)).1
  rw [perm_middle.mem_iff, mem_cons]
  constructor
  · exact fun inside => ⟨.inr inside, fun same => outside (same ▸ inside)⟩
  · exact fun both => both.1.resolve_left both.2

theorem IsList.prev_eq {node : N} (list : IsList links head (before ++ node :: after)) :
    links.prev node = some ((head :: before).getLast (by simp)) := by
  have backward := list.backward
  simp only [reverse_append, reverse_cons, append_assoc, cons_append, nil_append] at backward
  exact chain_reverse_first ((chain_append _ _ _ _ _ _).mp backward).2

theorem Chain.first_eq (chain : Chain field first middle last) :
    field first = some ((middle ++ [last]).head (by simp)) := by
  cases middle with
  | nil => simpa [Chain] using chain
  | cons following rest => simpa using chain.1

theorem IsList.next_eq {node : N} (list : IsList links head (before ++ node :: after)) :
    links.next node = some ((after ++ [head]).head (by simp)) :=
  ((chain_append _ _ _ _ _ _).mp list.forward).2.first_eq

theorem IsList.next_head (list : IsList links head nodes) : links.next head = some ((nodes ++ [head]).head (by simp)) :=
  list.forward.first_eq

theorem IsList.prev_head (list : IsList links head nodes) :
    links.prev head = some ((head :: nodes).getLast (by simp)) :=
  chain_reverse_first list.backward

theorem IsList.congr {links' : Links N} (list : IsList links head nodes)
    (next : ∀ node ∈ head :: nodes, links'.next node = links.next node)
    (prev : ∀ node ∈ head :: nodes, links'.prev node = links.prev node) : IsList links' head nodes := by
  refine ⟨list.nodup, chain_congr next list.forward, chain_congr ?_ list.backward⟩
  simpa using prev

theorem getLast_mem_cons_append (head node : N) (before after : List N) :
    (head :: before).getLast (by simp) ∈ head :: (before ++ node :: after) := by
  rcases mem_cons.mp (getLast_mem (l := head :: before) (by simp)) with first | inside
  · simp [first]
  · exact mem_cons_of_mem _ (mem_append_left _ inside)

variable [DecidableEq N]

def writeAt (field : N → Option N) (target : Option N) (value : Option N) : N → Option N :=
  match target with
  | some node => update field node value
  | none => field

def initListHead (head : N) (links : Links N) : Links N where
  prev := update links.prev head (some head)
  next := update links.next head (some head)

def listInsert (el : N) (before after : Option N) (links : Links N) : Links N where
  next := update (writeAt links.next before (some el)) el after
  prev := writeAt (update links.prev el before) after (some el)

def listAddTail (el head : N) (links : Links N) : Links N := listInsert el (links.prev head) (some head) links

def listDel (el : N) (links : Links N) : Links N where
  next := update (writeAt links.next (links.prev el) (links.next el)) el none
  prev := update (writeAt links.prev (links.next el) (links.prev el)) el none

theorem chain_retarget (unique : (first :: middle).Nodup) (chain : Chain field first middle last) (target : N) :
    Chain (update field ((first :: middle).getLast (by simp)) (some target)) first middle target := by
  induction middle generalizing first with
  | nil => simp [Chain]
  | cons node rest ih =>
    have parts := nodup_cons.mp unique
    have final : (first :: node :: rest).getLast (by simp) = (node :: rest).getLast (by simp) := by simp
    rw [final]
    refine ⟨?_, ih parts.2 chain.2⟩
    have different : first ≠ (node :: rest).getLast (by simp) := by
      intro equal
      exact parts.1 (equal ▸ getLast_mem _)
    rw [update_of_ne different]
    exact chain.1

theorem initListHead_isList (links : Links N) (head : N) : IsList (initListHead head links) head [] := by
  constructor <;> simp [initListHead, Chain]

theorem IsList.initListHead {other : N} (list : IsList links head nodes) (outside : other ∉ head :: nodes) :
    IsList (initListHead other links) head nodes := by
  have apart : ∀ node ∈ head :: nodes, node ≠ other := fun node member same => outside (same ▸ member)
  apply list.congr
  · intro node member
    simp [ListHead.initListHead, update_of_ne (apart node member)]
  · intro node member
    simp [ListHead.initListHead, update_of_ne (apart node member)]

theorem IsList.addTail (list : IsList links head nodes) (fresh : el ∉ head :: nodes) :
    IsList (listAddTail el head links) head (nodes ++ [el]) := by
  have notHead : el ≠ head := fun equal => fresh (by simp [equal])
  have notNode : el ∉ nodes := fun member => fresh (by simp [member])
  have previous := list.prev_head
  refine ⟨?_, ?_, ?_⟩
  · have unique := nodup_cons.mp list.nodup
    refine nodup_cons.mpr ⟨?_, nodup_append.mpr ⟨unique.2, by simp, ?_⟩⟩
    · simp [unique.1, notHead.symm]
    · rintro node member _ last rfl
      exact notNode (by simpa using (mem_singleton.mp last) ▸ member)
  · refine (chain_append _ _ _ _ _ _).mpr ⟨?_, by simp [listAddTail, listInsert, Chain]⟩
    refine chain_congr ?_ (chain_retarget list.nodup list.forward el)
    intro node member
    have different : node ≠ el := fun equal => fresh (equal ▸ member)
    simp [listAddTail, listInsert, previous, writeAt, update_of_ne different]
  · simp only [reverse_append, reverse_cons, reverse_nil, nil_append, singleton_append]
    refine ⟨by simp [listAddTail, listInsert, writeAt], ?_⟩
    refine chain_restart ?_ ?_ list.backward
    · simp [listAddTail, listInsert, writeAt, update_of_ne notHead]
    · intro node member
      have different : node ≠ el := fun equal => notNode (by simpa [equal] using member)
      have notFirst : node ≠ head := by
        rintro rfl
        exact (nodup_cons.mp list.nodup).1 (by simpa using member)
      simp [listAddTail, listInsert, writeAt, update_of_ne different, update_of_ne notFirst]

theorem IsList.addTail_frame {other : N} (list : IsList links head nodes) (second : IsList links other others)
    (fresh : el ∉ other :: others) (disjoint : List.Disjoint (head :: nodes) (other :: others)) :
    IsList (listAddTail el head links) other others := by
  have previous := list.prev_head
  have lastMember : (head :: nodes).getLast (by simp) ∈ head :: nodes := getLast_mem _
  apply second.congr
  · intro node member
    have different : node ≠ el := fun equal => fresh (equal ▸ member)
    have notLast : node ≠ (head :: nodes).getLast (by simp) :=
      fun equal => disjoint lastMember (equal ▸ member)
    simp [listAddTail, listInsert, previous, writeAt, update_of_ne different, update_of_ne notLast]
  · intro node member
    have different : node ≠ el := fun equal => fresh (equal ▸ member)
    have notHead : node ≠ head := fun equal => disjoint (by simp) (equal ▸ member)
    simp [listAddTail, listInsert, writeAt, update_of_ne different, update_of_ne notHead]

theorem chain_unlink (unique : (head :: (before ++ el :: after)).Nodup)
    (chain : Chain field head (before ++ el :: after) head) :
    Chain (update (update field ((head :: before).getLast (by simp)) (field el))
      el none) head (before ++ after) head := by
  obtain ⟨front, back⟩ := (chain_append _ _ _ _ _ _).mp chain
  have uniqueFront : (head :: before).Nodup :=
    unique.sublist (cons_sublist_cons.mpr (sublist_append_left _ _))
  have notHead : el ≠ head := by
    rintro rfl
    exact (nodup_cons.mp unique).1 (by simp)
  have parts := nodup_append.mp (nodup_cons.mp unique).2
  have notBefore : el ∉ before := fun member => parts.2.2 el member el (by simp) rfl
  have notAfter : el ∉ after := (nodup_cons.mp parts.2.1).1
  have frontStays : ∀ node ∈ head :: before, update (update field ((head :: before).getLast (by simp)) (field el))
        el none node =
      update field ((head :: before).getLast (by simp)) (field el) node := by
    intro node member
    refine update_of_ne ?_ _ _
    rintro rfl
    rcases mem_cons.mp member with first | inside
    · exact notHead first
    · exact notBefore inside
  cases after with
  | nil =>
    have arrives : field el = some head := back
    rw [append_nil]
    refine chain_congr frontStays ?_
    rw [arrives]
    exact chain_retarget uniqueFront front head
  | cons following rest =>
    have arrives : field el = some following := back.1
    refine (chain_append _ _ _ _ _ _).mpr ⟨?_, ?_⟩
    · refine chain_congr frontStays ?_
      rw [arrives]
      exact chain_retarget uniqueFront front following
    · refine chain_congr ?_ back.2
      intro node member
      have different : node ≠ el := by
        rintro rfl
        exact notAfter member
      have notLast : node ≠ (head :: before).getLast (by simp) := by
        intro equal
        rcases mem_cons.mp (getLast_mem (l := head :: before) (by simp)) with first | inside
        · rw [← equal] at first
          exact (nodup_cons.mp unique).1 (by simp [← first, mem_cons.mp member])
        · rw [← equal] at inside
          exact parts.2.2 node inside node (mem_cons_of_mem _ member) rfl
      rw [update_of_ne different, update_of_ne notLast]

theorem IsList.del (list : IsList links head (before ++ el :: after)) :
    IsList (listDel el links) head (before ++ after) := by
  refine ⟨?_, ?_, ?_⟩
  · have sub : (before ++ after).Sublist (before ++ el :: after) :=
      Sublist.append_left (sublist_cons_self _ _) _
    exact list.nodup.sublist (cons_sublist_cons.mpr sub)
  · have chain := chain_unlink list.nodup list.forward
    simpa [listDel, list.prev_eq, writeAt] using chain
  · have reversed := list.flip
    simp only [reverse_append, reverse_cons, append_assoc, cons_append,
      nil_append] at reversed ⊢
    have chain := chain_unlink reversed.nodup reversed.forward
    have following := reversed.prev_eq
    simp only [Links.flip] at chain following
    simpa [listDel, following, writeAt] using chain

theorem IsList.del_frame {other : N} (list : IsList links head (before ++ el :: after))
    (second : IsList links other others)
    (disjoint : List.Disjoint (head :: (before ++ el :: after)) (other :: others)) :
    IsList (listDel el links) other others := by
  have following : links.next el = some ((after ++ [head]).head (by simp)) := list.next_eq
  have nextMember : (after ++ [head]).head (by simp) ∈ head :: (before ++ el :: after) := by
    rcases mem_append.mp (head_mem (l := after ++ [head]) (by simp)) with inside | first
    · exact mem_cons_of_mem _ (mem_append_right _ (mem_cons_of_mem _ inside))
    · simp [mem_singleton.mp first]
  have avoids : ∀ node ∈ other :: others, ∀ cell ∈ head :: (before ++ el :: after), node ≠ cell :=
    fun node member cell inside equal => disjoint inside (equal ▸ member)
  apply second.congr
  · intro node member
    have different := avoids node member el (by simp)
    have notLast := avoids node member _ (getLast_mem_cons_append head el before after)
    simp [listDel, list.prev_eq, writeAt, update_of_ne different, update_of_ne notLast]
  · intro node member
    have different := avoids node member el (by simp)
    have notNext := avoids node member _ nextMember
    simp [listDel, following, writeAt, update_of_ne different, update_of_ne notNext]

theorem IsList.move {source target : N} (first : IsList links source (before ++ el :: after))
    (second : IsList links target others)
    (disjoint : List.Disjoint (source :: (before ++ el :: after)) (target :: others)) :
    IsList (listAddTail el target (listDel el links)) source (before ++ after) ∧
      IsList (listAddTail el target (listDel el links)) target (others ++ [el]) := by
  have removed := first.del
  have kept := first.del_frame second disjoint
  have outside : el ∉ target :: others := fun member => disjoint (by simp) member
  have unlinked : el ∉ source :: (before ++ after) := by
    have unique := first.nodup
    rw [← cons_append, nodup_middle] at unique
    exact (nodup_cons.mp unique).1
  have smaller : List.Disjoint (target :: others) (source :: (before ++ after)) := by
    intro node inTarget inSource
    refine disjoint ?_ inTarget
    simp only [mem_cons, mem_append] at inSource ⊢
    tauto
  exact ⟨kept.addTail_frame removed unlinked smaller, kept.addTail outside⟩

end ListHead
