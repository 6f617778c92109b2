import Partikle.Lib.HashChain
import Partikle.Shape.Core
import Mathlib.Data.List.Count

/-!
The property table of one shape. `Linked` is what every shape satisfies; `Chained` says
in addition that the chains are right, which needs indices that fit `hash_next`.
-/

namespace Shapes

open HashChain Function List

/-- An index field: 0 ends a chain, and property `i` is number `i + 1`. -/
def linkIndex (h : Nat) : Option Nat := if h = 0 then none else some (h - 1)

@[simp] theorem linkIndex_zero : linkIndex 0 = none := rfl

@[simp] theorem linkIndex_succ (i : Nat) : linkIndex (i + 1) = some i := rfl

variable {i h : Nat} {pr : ShapeProperty} {atom : BitVec 32}

theorem linkIndex_eq_some : linkIndex h = some i ↔ h = i + 1 := by
  cases h with
  | zero | succ _ => simp

theorem linkIndex_eq_none : linkIndex h = none ↔ h = 0 := by
  cases h with
  | zero | succ _ => simp

def nextIn (prop : List ShapeProperty) (i : Nat) : Option Nat :=
  prop[i]?.bind fun pr => linkIndex pr.hashNext.toNat

def liveIn (prop : List ShapeProperty) (i : Nat) : Prop := ∃ pr, prop[i]? = some pr ∧ pr.atom ≠ JS_ATOM_NULL

def bucketIn (mask : Nat) (prop : List ShapeProperty) (i : Nat) : Nat :=
  (prop[i]?.map fun pr => pr.atom.toNat &&& mask).getD 0

abbrev PropTable (mask : Nat) (prop : List ShapeProperty) (hash : Nat → Nat) : Prop :=
  IsTable (nextIn prop) (fun b => linkIndex (hash b)) (mask + 1) (bucketIn mask prop) (liveIn prop)

def Props.liveAtoms (props : Props) : List (BitVec 32) :=
  (props.prop.map ShapeProperty.atom).filter fun atom => atom ≠ JS_ATOM_NULL

structure Linked (props : Props) : Prop where
  room : props.prop.length ≤ props.propSize
  sized : ∃ k, props.propHashMask + 1 = 2 ^ k
  heads : ∀ b, props.propHash b ≤ props.prop.length
  links : ∀ (i : Nat) (pr : ShapeProperty), props.prop[i]? = some pr → pr.hashNext.toNat ≤ i
  deleted : props.deletedPropCount = props.prop.countP fun pr => pr.atom = JS_ATOM_NULL

/-- As many properties as `hash_next` can number. -/
def maxProps : Nat := 2 ^ 26

structure Chained (props : Props) : Prop where
  linked : Linked props
  small : props.prop.length ≤ maxProps
  chains : PropTable props.propHashMask props.prop props.propHash
  distinct : props.liveAtoms.Nodup

theorem and_mask_lt (n mask : Nat) : n &&& mask < mask + 1 := Nat.lt_succ_of_le Nat.and_le_right

theorem exists_getElem? {α : Type} {l : List α} (inside : i < l.length) :
    ∃ a, l[i]? = some a := ⟨l[i], getElem?_eq_getElem inside⟩

section Walk

variable {prop : List ShapeProperty} {nodes : List Nat}

theorem follows_of_links (links : ∀ (i : Nat) (pr : ShapeProperty), prop[i]? = some pr → pr.hashNext.toNat ≤ i)
    (bound : h ≤ prop.length) :
    ∃ nodes, Follows (nextIn prop) (linkIndex h) nodes ∧ nodes.length ≤ h ∧ ∀ node ∈ nodes, node < h := by
  induction h using Nat.strongRecOn with
  | ind h ih =>
    cases h with
    | zero => exact ⟨[], rfl, Nat.le_refl _, by simp⟩
    | succ i =>
      have inside : i < prop.length := bound
      obtain ⟨pr, present⟩ := exists_getElem? inside
      have down := links i pr present
      obtain ⟨rest, follows, length, members⟩ := ih pr.hashNext.toNat (Nat.lt_succ_of_le down) (by omega)
      have next : nextIn prop i = linkIndex pr.hashNext.toNat := by simp [nextIn, present]
      refine ⟨i :: rest, ⟨linkIndex_succ i, by rwa [next]⟩, ?_, ?_⟩
      · simp only [length_cons]
        omega
      · intro node member
        rcases mem_cons.mp member with rfl | later
        · exact Nat.lt_succ_self _
        · have := members node later
          omega

theorem follows_succ {node : Nat} (follows : Follows (nextIn prop) (linkIndex h) (node :: nodes)) :
    h = node + 1 := linkIndex_eq_some.mp follows.1

theorem nextIn_eq (present : prop[i]? = some pr) : nextIn prop i = linkIndex pr.hashNext.toNat := by
  simp [nextIn, present]

def hasAtom (prop : List ShapeProperty) (atom : BitVec 32) (i : Nat) : Bool :=
  prop[i]?.any fun pr => pr.atom == atom

theorem findLoop_spec {fuel : Nat} (follows : Follows (nextIn prop) (linkIndex h) nodes)
    (inside : ∀ node ∈ nodes, node < prop.length) (bound : nodes.length < fuel) :
    findLoop prop atom fuel h = some (nodes.find? (hasAtom prop atom)) := by
  induction nodes generalizing h fuel with
  | nil =>
    obtain _ | rest := fuel
    · cases bound
    simp [findLoop, linkIndex_eq_none.mp follows]
  | cons node nodes ih =>
    obtain _ | rest := fuel
    · cases bound
    obtain rfl := follows_succ follows
    obtain ⟨pr, present⟩ := exists_getElem? (inside node (by simp))
    have behind := follows.2
    rw [nextIn_eq present] at behind
    have later := ih behind (fun n member => inside n (.tail _ member)) (Nat.lt_of_succ_lt_succ bound)
    by_cases found : pr.atom = atom
    · simp [findLoop, present, found, hasAtom]
    · simp [findLoop, present, found, hasAtom, later]

theorem deleteLoop_spec {fuel : Nat} {lpr : Option Nat} (follows : Follows (nextIn prop) (linkIndex h) nodes)
    (inside : ∀ node ∈ nodes, node < prop.length) (bound : nodes.length < fuel) :
    (deleteLoop prop atom fuel lpr h = some none ∧ ∀ node ∈ nodes, hasAtom prop atom node = false) ∨
      ∃ before node after, nodes = before ++ node :: after ∧ hasAtom prop atom node = true ∧
      deleteLoop prop atom fuel lpr h = some (some (node, before.getLast?.or lpr)) := by
  induction nodes generalizing h fuel lpr with
  | nil =>
    obtain _ | rest := fuel
    · cases bound
    exact .inl ⟨by simp [deleteLoop, linkIndex_eq_none.mp follows], by simp⟩
  | cons node nodes ih =>
    obtain _ | rest := fuel
    · cases bound
    obtain rfl := follows_succ follows
    obtain ⟨pr, present⟩ := exists_getElem? (inside node (by simp))
    have behind := follows.2
    rw [nextIn_eq present] at behind
    by_cases found : pr.atom = atom
    · exact .inr ⟨[], node, nodes, rfl, by simp [hasAtom, present, found],
        by simp [deleteLoop, present, found]⟩
    · have unwanted : hasAtom prop atom node = false := by simp [hasAtom, present, found]
      have unfolded : deleteLoop prop atom (rest + 1) lpr (node + 1) =
          deleteLoop prop atom rest (some node) pr.hashNext.toNat := by
        simp [deleteLoop, present, found]
      rw [unfolded]
      have later := @ih pr.hashNext.toNat rest (some node) behind
        (fun n member => inside n (.tail _ member)) (Nat.lt_of_succ_lt_succ bound)
      rcases later with ⟨absent, others⟩ | ⟨before, i, after, split, wanted, result⟩
      · refine .inl ⟨absent, ?_⟩
        intro n member
        rcases mem_cons.mp member with rfl | later
        · exact unwanted
        · exact others n later
      · refine .inr ⟨node :: before, i, after, by simp [split], wanted, ?_⟩
        rw [result, getLast?_cons]
        cases before.getLast? <;> simp

end Walk

section Append

variable {mask : Nat} {prop more : List ShapeProperty} {hash : Nat → Nat}

theorem nextIn_append (inside : i < prop.length) : nextIn (prop ++ more) i = nextIn prop i := by
  simp [nextIn, getElem?_append_left inside]

theorem bucketIn_append (inside : i < prop.length) : bucketIn mask (prop ++ more) i = bucketIn mask prop i := by
  simp [bucketIn, getElem?_append_left inside]

theorem liveIn_append (inside : i < prop.length) : liveIn (prop ++ more) i ↔ liveIn prop i := by
  simp [liveIn, getElem?_append_left inside]

theorem liveIn_lt (live : liveIn prop i) : i < prop.length := by
  obtain ⟨pr, present, -⟩ := live
  exact (List.getElem?_eq_some_iff.mp present).1

theorem liveIn_concat : liveIn (prop ++ [pr]) i ↔ liveIn prop i ∨ i = prop.length ∧ pr.atom ≠ JS_ATOM_NULL := by
  by_cases inside : i < prop.length
  · rw [liveIn_append inside]
    have other : i ≠ prop.length := by omega
    simp [other]
  · have outside : ¬liveIn prop i := fun live => inside (liveIn_lt live)
    rcases eq_or_ne i prop.length with rfl | last
    · simp [liveIn]
    · have beyond : (prop ++ [pr])[i]? = none := by
        simp
        omega
      simp [outside, last]
      simp [liveIn, beyond]

theorem PropTable.push (table : PropTable mask prop hash) (live : pr.atom ≠ JS_ATOM_NULL)
    (small : hash (pr.atom.toNat &&& mask) < maxProps)
    (next : pr.hashNext = BitVec.ofNat 26 (hash (pr.atom.toNat &&& mask))) :
    PropTable mask (prop ++ [pr]) (update hash (pr.atom.toNat &&& mask) (prop.length + 1)) := by
  have last : (prop ++ [pr])[prop.length]? = some pr := getElem?_concat_length
  have bucket : bucketIn mask (prop ++ [pr]) prop.length = pr.atom.toNat &&& mask := by simp [bucketIn]
  have old : IsTable (nextIn prop) (fun b => linkIndex (hash b)) (mask + 1)
      (bucketIn mask (prop ++ [pr])) (liveIn prop) :=
    IsTable.congr table (fun _ => .rfl) (fun _ _ => rfl) (fun _ _ => rfl)
      (fun _ live => bucketIn_append (liveIn_lt live))
  have pushed : IsTable (nextIn (prop ++ [pr]))
      (fun b => linkIndex (update hash (pr.atom.toNat &&& mask) (prop.length + 1) b)) (mask + 1)
      (bucketIn mask (prop ++ [pr])) fun i => liveIn prop i ∨ i = prop.length := by
    apply old.push
    · intro live
      exact Nat.lt_irrefl _ (liveIn_lt live)
    · rw [bucket]
      exact and_mask_lt _ _
    · rw [bucket, nextIn_eq last, next, BitVec.toNat_ofNat, Nat.mod_eq_of_lt (b := 2 ^ 26) small]
    · intro i live
      exact nextIn_append (liveIn_lt live)
    · intro b _
      rw [bucket]
      by_cases own : b = pr.atom.toNat &&& mask
      · simp [own]
      · simp [own]
  refine pushed.of_iff ?_
  intro i
  rw [liveIn_concat]
  simp [live]

theorem PropTable.skip (table : PropTable mask prop hash) (dead : pr.atom = JS_ATOM_NULL) :
    PropTable mask (prop ++ [pr]) hash := by
  refine IsTable.congr table ?_ ?_ (fun _ _ => rfl) ?_
  · intro i
    rw [liveIn_concat]
    simp [dead]
  · intro i live
    exact nextIn_append (liveIn_lt live)
  · intro i live
    exact bucketIn_append (liveIn_lt live)

theorem propTable_nil (mask : Nat) : PropTable mask [] fun _ => 0 := by
  have empty : IsTable (nextIn []) (fun _ => linkIndex 0) (mask + 1) (bucketIn mask [])
      fun _ => False := isTable_empty fun _ _ => rfl
  refine empty.of_iff ?_
  simp [liveIn]

end Append

section Relink

variable {mask : Nat} {hash : Nat → Nat}

theorem relink_cons_live (live : pr.atom ≠ JS_ATOM_NULL) (rest : List ShapeProperty) (i : Nat) :
    relink mask (pr :: rest) i hash = ({ pr with hashNext := BitVec.ofNat 26 (hash (pr.atom.toNat &&& mask)) } ::
      (relink mask rest (i + 1) (update hash (pr.atom.toNat &&& mask) (i + 1))).1,
      (relink mask rest (i + 1) (update hash (pr.atom.toNat &&& mask) (i + 1))).2) := by
  simp [relink, live]

theorem relink_cons_dead (dead : pr.atom = JS_ATOM_NULL) (rest : List ShapeProperty) (i : Nat) :
    relink mask (pr :: rest) i hash =
      (pr :: (relink mask rest (i + 1) hash).1, (relink mask rest (i + 1) hash).2) := by
  simp [relink, dead]

theorem update_le {hash : Nat → Nat} {n b : Nat} (bound : ∀ b, hash b ≤ n) : ∀ c, update hash b (n + 1) c ≤ n + 1 := by
  intro c
  by_cases same : c = b
  · simp [same]
  · rw [update_of_ne same]
    exact Nat.le_succ_of_le (bound c)

theorem relink_spec (l : List ShapeProperty) (i : Nat) (bound : ∀ b, hash b ≤ i)
    (dead : ∀ (k : Nat) (pr : ShapeProperty), l[k]? = some pr → pr.atom = JS_ATOM_NULL → pr.hashNext.toNat ≤ i + k) :
    (relink mask l i hash).1.map (fun pr => (pr.atom, pr.flags)) = l.map (fun pr => (pr.atom, pr.flags)) ∧
      (∀ b, (relink mask l i hash).2 b ≤ i + l.length) ∧ ∀ (k : Nat) (pr : ShapeProperty),
      (relink mask l i hash).1[k]? = some pr → pr.hashNext.toNat ≤ i + k := by
  induction l generalizing i hash with
  | nil => exact ⟨rfl, bound, by simp [relink]⟩
  | cons pr rest ih =>
    have deadRest : ∀ (k : Nat) (pr : ShapeProperty), rest[k]? = some pr → pr.atom = JS_ATOM_NULL →
        pr.hashNext.toNat ≤ i + 1 + k := by
      intro k pr' present isDead
      have := dead (k + 1) pr' (by simpa using present) isDead
      omega
    -- the head keeps its link if it is deleted, and takes that of its bucket otherwise
    obtain ⟨head, hash', equation, same, bound', link⟩ : ∃ head hash', relink mask (pr :: rest) i hash =
        (head :: (relink mask rest (i + 1) hash').1, (relink mask rest (i + 1) hash').2) ∧
        (head.atom, head.flags) = (pr.atom, pr.flags) ∧ (∀ b, hash' b ≤ i + 1) ∧ head.hashNext.toNat ≤ i := by
      by_cases live : pr.atom = JS_ATOM_NULL
      · exact ⟨pr, hash, relink_cons_dead live _ _, rfl, fun b => Nat.le_succ_of_le (bound b), dead 0 pr rfl live⟩
      · exact ⟨_, _, relink_cons_live live _ _, rfl, update_le bound, Nat.le_trans (Nat.mod_le _ _) (bound _)⟩
    obtain ⟨entries, heads, links⟩ := ih (i + 1) bound' deadRest
    rw [equation]
    refine ⟨by simp [entries, same], ?_, ?_⟩
    · intro b
      have := heads b
      simp only [length_cons]
      omega
    · intro k pr' present
      cases k with
      | zero =>
        simp only [getElem?_cons_zero, Option.some.injEq] at present
        exact present ▸ link
      | succ k =>
        have := links k pr' (by simpa using present)
        omega

theorem relink_table (done l : List ShapeProperty) (table : PropTable mask done hash)
    (bound : ∀ b, hash b ≤ done.length) (small : done.length + l.length ≤ maxProps) :
    PropTable mask (done ++ (relink mask l done.length hash).1) (relink mask l done.length hash).2 := by
  induction l generalizing done hash with
  | nil => simpa [relink] using table
  | cons pr rest ih =>
    simp only [length_cons] at small
    by_cases live : pr.atom = JS_ATOM_NULL
    · rw [relink_cons_dead live]
      have later := ih (done ++ [pr]) (table.skip live) (fun b => by
        have := bound b
        simp
        omega) (by simp; omega)
      simpa using later
    · let pr' : ShapeProperty := { pr with hashNext := BitVec.ofNat 26 (hash (pr.atom.toNat &&& mask)) }
      have fits : hash (pr.atom.toNat &&& mask) < maxProps := by
        have := bound (pr.atom.toNat &&& mask)
        omega
      have pushed : PropTable mask (done ++ [pr']) (update hash (pr.atom.toNat &&& mask) (done.length + 1)) :=
        PropTable.push table live fits rfl
      rw [relink_cons_live live]
      have later := ih (done ++ [pr']) pushed (fun b => by
        have := update_le (b := pr.atom.toNat &&& mask) bound b
        simpa using this) (by simp; omega)
      simpa [pr'] using later

end Relink

end Shapes
