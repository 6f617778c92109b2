import Mathlib.Data.Fintype.Card
import Mathlib.Data.List.Nodup
import Mathlib.Logic.Relation

/-!
The prototypes of `n` objects, none of which is a proxy. The prototype of an object is in its shape, which it may share
with other objects. Memory does not run out, and what is no object is refused elsewhere; a loop that does not end gives
`none`.
-/

namespace Prototypes

open Function List

structure Shape (n : Nat) where
  proto : Option (Fin n)
  isHashed : Bool

structure Object where
  shape : Nat
  extensible : Bool

/-- `fresh` is where the next shape is allocated. -/
structure Heap (n : Nat) where
  shape : Nat → Shape n
  object : Fin n → Object
  fresh : Nat

inductive Error where
  | notExtensible
  | circular

variable {n : Nat}

def Heap.proto (h : Heap n) (o : Fin n) : Option (Fin n) := (h.shape (h.object o).shape).proto

def Heap.setShape (h : Heap n) (sh : Nat) (s : Shape n) : Heap n := { h with shape := update h.shape sh s }

/-- The reference count of the shape is not 1. -/
def Heap.isShared (h : Heap n) (p : Fin n) : Bool := decide (∃ o, o ≠ p ∧ (h.object o).shape = (h.object p).shape)

def jsShapePrepareUpdate (h : Heap n) (p : Fin n) : Heap n :=
  let s := h.shape (h.object p).shape
  if s.isHashed then
    if h.isShared p then
      { shape := update h.shape h.fresh { s with isHashed := false }
        object := update h.object p { h.object p with shape := h.fresh }
        fresh := h.fresh + 1 }
    else h.setShape (h.object p).shape { s with isHashed := false }
  else h

def findCycle (h : Heap n) (p : Fin n) : Nat → Fin n → Option Bool
  | 0, _ => none
  | fuel + 1, p1 =>
    if p1 = p then some true
    else
      match h.proto p1 with
      | none => some false
      | some p1 => findCycle h p fuel p1

def refuse (throwFlag : Bool) (e : Error) (h : Heap n) : Except Error Bool × Heap n :=
  (if throwFlag then .error e else .ok false, h)

def assignProto (h : Heap n) (p : Fin n) (proto : Option (Fin n)) : Heap n :=
  let h := jsShapePrepareUpdate h p
  h.setShape (h.object p).shape { h.shape (h.object p).shape with proto }

def isCircular (h : Heap n) (p : Fin n) : Option (Fin n) → Option Bool
  | none => some false
  | some q => findCycle h p n q

def jsSetPrototypeInternal (h : Heap n) (p : Fin n) (proto : Option (Fin n)) (throwFlag : Bool) :
    Option (Except Error Bool × Heap n) :=
  if h.proto p = proto then some (.ok true, h)
  else if ¬(h.object p).extensible then some (refuse throwFlag .notExtensible h)
  else
    match isCircular h p proto with
    | none => none
    | some true => some (refuse throwFlag .circular h)
    | some false => some (.ok true, assignProto h p proto)

section Chains

variable {h : Heap n} {p q : Fin n}

def Heap.Step (h : Heap n) (p q : Fin n) : Prop := h.proto p = some q

def Heap.Acyclic (h : Heap n) : Prop := ∀ p, ¬Relation.TransGen h.Step p p

/-- The walk is longer than no chain: the objects it has passed are different. -/
theorem findCycle_ends (acyclic : h.Acyclic) (fuel : Nat) (passed : List (Fin n)) (distinct : passed.Nodup)
    (above : ∀ o ∈ passed, Relation.TransGen h.Step o q) (enough : n ≤ fuel + passed.length) :
    ∃ found, findCycle h p fuel q = some found ∧ (found = true ↔ Relation.ReflTransGen h.Step q p) := by
  induction fuel generalizing q passed with
  | zero =>
    have short := (nodup_cons.mpr ⟨fun there => acyclic q (above q there), distinct⟩).length_le_card
    rw [length_cons, Fintype.card_fin] at short
    omega
  | succ fuel ih =>
    unfold findCycle
    by_cases same : q = p
    · exact ⟨true, if_pos same, by simp [same, Relation.ReflTransGen.refl]⟩
    · rw [if_neg same]
      cases next : h.proto q with
      | none =>
        refine ⟨false, rfl, iff_of_false nofun fun reaches => ?_⟩
        obtain stays | ⟨o, step, -⟩ := reaches.cases_head
        · exact same stays
        · simp [Heap.Step, next] at step
      | some o =>
        have step : h.Step q o := next
        have above' : ∀ o' ∈ q :: passed, Relation.TransGen h.Step o' o := by
          intro o' there
          rcases mem_cons.mp there with rfl | older
          · exact .single step
          · exact (above o' older).tail step
        have distinct' := nodup_cons.mpr ⟨fun there => acyclic q (above q there), distinct⟩
        obtain ⟨found, runs, reaches⟩ := ih (q :: passed) distinct' above' (by rw [length_cons]; omega)
        refine ⟨found, runs, reaches.trans ⟨.head step, fun whole => ?_⟩⟩
        obtain stays | ⟨o', step', rest⟩ := whole.cases_head
        · exact absurd stays same
        · rw [Heap.Step, next] at step'
          cases step'
          exact rest

theorem isCircular_ends (acyclic : h.Acyclic) (p : Fin n) (proto : Option (Fin n)) :
    ∃ found, isCircular h p proto = some found ∧
      (found = true ↔ ∃ q, proto = some q ∧ Relation.ReflTransGen h.Step q p) := by
  cases proto with
  | none => exact ⟨false, rfl, by simp⟩
  | some q =>
    obtain ⟨found, runs, reaches⟩ := findCycle_ends acyclic n [] .nil (by simp) (by simp)
    exact ⟨found, runs, by simp [reaches]⟩

theorem acyclic_assign {h' : Heap n} {proto : Option (Fin n)} (acyclic : h.Acyclic)
    (apart : ∀ q, proto = some q → ¬Relation.ReflTransGen h.Step q p)
    (assigned : ∀ o, h'.proto o = if o = p then proto else h.proto o) : h'.Acyclic := by
  -- a chain in the new heap is one in the old heap, or goes through the new edge once
  have chain : ∀ a b, Relation.TransGen h'.Step a b → Relation.TransGen h.Step a b ∨
      ∃ q, proto = some q ∧ Relation.ReflTransGen h.Step a p ∧ Relation.ReflTransGen h.Step q b := by
    intro a b steps
    have edge : ∀ b c, h'.Step b c → h.Step b c ∨ b = p ∧ proto = some c := by
      intro b c step
      rw [Heap.Step, assigned] at step
      split at step
      · exact .inr ⟨‹_›, step⟩
      · exact .inl step
    induction steps with
    | single step =>
      rcases edge _ _ step with old | ⟨rfl, new⟩
      · exact .inl (.single old)
      · exact .inr ⟨_, new, .refl, .refl⟩
    | tail _ step ih =>
      rcases edge _ _ step with old | ⟨rfl, new⟩
      · rcases ih with before | ⟨q, is, first, second⟩
        · exact .inl (before.tail old)
        · exact .inr ⟨q, is, first, second.tail old⟩
      · rcases ih with before | ⟨q, is, first, second⟩
        · exact .inr ⟨_, new, before.to_reflTransGen, .refl⟩
        · exact absurd second (apart q is)
  intro o cycle
  rcases chain o o cycle with old | ⟨q, is, first, second⟩
  · exact acyclic o old
  · exact apart q is (second.trans first)

end Chains

/-- A shape that is not hashed belongs to one object. -/
structure Owned (h : Heap n) : Prop where
  fresh : ∀ o, (h.object o).shape < h.fresh
  own : ∀ o p, (h.shape (h.object p).shape).isHashed = false → (h.object o).shape = (h.object p).shape → o = p

section Assign

variable {h : Heap n}

theorem Owned.setShape (owned : Owned h) {p : Fin n} (alone : ∀ o, (h.object o).shape = (h.object p).shape → o = p)
    (s : Shape n) : Owned (h.setShape (h.object p).shape s) ∧
      ∀ o, (h.setShape (h.object p).shape s).proto o = if o = p then s.proto else h.proto o := by
  refine ⟨⟨owned.fresh, fun o q unhashed same => ?_⟩, fun o => ?_⟩
  · by_cases here : (h.object q).shape = (h.object p).shape
    · rw [alone q here, alone o (same.trans here)]
    · refine owned.own o q ?_ same
      simpa [Heap.setShape, update_of_ne here] using unhashed
  · by_cases here : o = p
    · simp [Heap.proto, Heap.setShape, here]
    · simp [Heap.proto, Heap.setShape, update_of_ne fun same => here (alone o same), here]

theorem prepareUpdate_spec (owned : Owned h) (p : Fin n) :
    let h' := jsShapePrepareUpdate h p
    Owned h' ∧ (∀ o, h'.proto o = h.proto o) ∧ ∀ o, (h'.object o).shape = (h'.object p).shape → o = p := by
  unfold jsShapePrepareUpdate
  dsimp only
  split
  · split
    · have old : ∀ o, (h.object o).shape ≠ h.fresh := fun o => (owned.fresh o).ne
      refine ⟨⟨fun o => ?_, fun o q => ?_⟩, fun o => ?_, fun o => ?_⟩
      · by_cases here : o = p
        · simp [here]
        · simpa [here] using (owned.fresh o).trans (Nat.lt_succ_self _)
      · by_cases here : o = p <;> by_cases there : q = p <;> simp [here, there, old, (old _).symm]
        exact owned.own o q
      · by_cases here : o = p <;> simp [Heap.proto, here, old]
      · by_cases here : o = p <;> simp [here, old]
    · rename_i alone
      have alone' : ∀ o, (h.object o).shape = (h.object p).shape → o = p := by
        intro o same
        by_contra other
        exact alone (decide_eq_true ⟨o, other, same⟩)
      obtain ⟨owned', protos⟩ := owned.setShape alone' { h.shape (h.object p).shape with isHashed := false }
      refine ⟨owned', fun o => (protos o).trans ?_, alone'⟩
      split
      · rename_i same
        rw [same]
        rfl
      · rfl
  · rename_i unhashed
    exact ⟨owned, fun _ => rfl, fun o => owned.own o p (by simpa using unhashed)⟩

theorem assignProto_spec (owned : Owned h) (p : Fin n) (proto : Option (Fin n)) :
    let h' := assignProto h p proto
    Owned h' ∧ ∀ o, h'.proto o = if o = p then proto else h.proto o := by
  obtain ⟨owned1, protos1, alone⟩ := prepareUpdate_spec owned p
  obtain ⟨owned2, protos2⟩ := owned1.setShape alone { (jsShapePrepareUpdate h p).shape
    ((jsShapePrepareUpdate h p).object p).shape with proto }
  refine ⟨owned2, fun o => ?_⟩
  rw [← protos1 o]
  exact protos2 o

end Assign

/-- The change is accepted exactly if it is none, or the object is extensible and not in the chain of its new
prototype; nothing else changes. -/
structure Conforms (h : Heap n) (p : Fin n) (proto : Option (Fin n)) (result : Except Error Bool) (h' : Heap n) :
    Prop where
  accepted : result = .ok true ↔ h.proto p = proto ∨ (h.object p).extensible = true ∧
    ∀ q, proto = some q → ¬Relation.ReflTransGen h.Step q p
  assigned : result = .ok true → ∀ o, h'.proto o = if o = p then proto else h.proto o
  refused : result ≠ .ok true → h' = h

theorem jsSetPrototypeInternal_conforms {h : Heap n} (owned : Owned h) (acyclic : h.Acyclic) (p : Fin n)
    (proto : Option (Fin n)) (throwFlag : Bool) : ∃ result h', jsSetPrototypeInternal h p proto throwFlag =
      some (result, h') ∧ Owned h' ∧ h'.Acyclic ∧ Conforms h p proto result h' := by
  have refuses {e : Error} : (refuse throwFlag e h).1 ≠ .ok true := by cases throwFlag <;> simp [refuse]
  unfold jsSetPrototypeInternal
  by_cases same : h.proto p = proto
  · refine ⟨.ok true, h, if_pos same, owned, acyclic, by simp [same], fun _ o => ?_, by simp⟩
    split
    · rename_i is
      rw [is, same]
    · rfl
  · rw [if_neg same]
    by_cases extensible : (h.object p).extensible = true
    · rw [if_neg (not_not.mpr extensible)]
      obtain ⟨found, runs, reaches⟩ := isCircular_ends acyclic p proto
      rw [runs]
      cases found with
      | true =>
        refine ⟨_, h, rfl, owned, acyclic, iff_of_false refuses ?_, fun is => absurd is refuses, fun _ => rfl⟩
        simpa [same, extensible] using reaches
      | false =>
        have apart : ∀ q, proto = some q → ¬Relation.ReflTransGen h.Step q p := by simpa using reaches
        obtain ⟨owned', protos⟩ := assignProto_spec owned p proto
        exact ⟨_, _, rfl, owned', acyclic_assign acyclic apart protos, iff_of_true rfl (.inr ⟨extensible, apart⟩),
          fun _ => protos, fun not => absurd rfl not⟩
    · rw [if_pos extensible]
      refine ⟨_, h, rfl, owned, acyclic, iff_of_false refuses ?_, fun is => absurd is refuses, fun _ => rfl⟩
      simp [same, extensible]

def run (h : Heap n) : List (Fin n × Option (Fin n) × Bool) → Option (Heap n)
  | [] => some h
  | (p, proto, throwFlag) :: rest =>
    match jsSetPrototypeInternal h p proto throwFlag with
    | none => none
    | some (_, h) => run h rest

theorem prototypes_stay_acyclic {h : Heap n} (owned : Owned h) (acyclic : h.Acyclic)
    (assignments : List (Fin n × Option (Fin n) × Bool)) :
    ∃ h', run h assignments = some h' ∧ h'.Acyclic ∧ ∀ p proto throwFlag, ∃ result h'',
      jsSetPrototypeInternal h' p proto throwFlag = some (result, h'') ∧ Conforms h' p proto result h'' := by
  induction assignments generalizing h with
  | nil =>
    refine ⟨h, rfl, acyclic, fun p proto throwFlag => ?_⟩
    obtain ⟨result, h', runs, -, -, conforms⟩ := jsSetPrototypeInternal_conforms owned acyclic p proto throwFlag
    exact ⟨result, h', runs, conforms⟩
  | cons assignment rest ih =>
    obtain ⟨p, proto, throwFlag⟩ := assignment
    obtain ⟨result, h1, runs, owned1, acyclic1, -⟩ := jsSetPrototypeInternal_conforms owned acyclic p proto throwFlag
    obtain ⟨h', rest', holds⟩ := ih owned1 acyclic1
    exact ⟨h', by simp only [run, runs, rest'], holds⟩

/-- Two objects that share a shape without prototype. -/
def twoObjects : Heap 2 := ⟨fun _ => ⟨none, true⟩, fun _ => ⟨0, true⟩, 1⟩

theorem prototypes_stay_acyclic_twoObjects :
    ∃ h', run twoObjects [(0, some 1, false), (1, some 0, false)] = some h' ∧ h'.Acyclic ∧ h'.proto 1 = none := by
  obtain ⟨h', runs, acyclic, -⟩ := prototypes_stay_acyclic (h := twoObjects) ⟨fun _ => Nat.zero_lt_one, nofun⟩
    (fun p cycle => by
      obtain ⟨q, step, -⟩ := Relation.TransGen.head'_iff.mp cycle
      cases step) [(0, some 1, false), (1, some 0, false)]
  refine ⟨h', runs, acyclic, ?_⟩
  cases runs
  decide

end Prototypes
