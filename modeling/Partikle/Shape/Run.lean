import Partikle.Shape.Refine

/-!
Runs of operations. In every reached state the invariant holds, so an operation on one
object is not seen through another one.
-/

namespace Shapes

open HashChain Option List

variable {V : Type} {P : Props → Prop} {fits sizes : Nat → Prop} {h h' : Heap V} {o : Nat}
  {state : Maps V}

section Start

theorem inv_emptyHeap (P : Props → Prop) : Inv P (emptyHeap V) := by
  have noShape {Q : Ptr → Shape → Prop} : ∀ p sh, (emptyHeap V).shape p = some sh → Q p sh := by
    intro p sh found
    cases found
  have noEntry : ∀ p, ¬((emptyHeap V).hashedAt p ∧ ¬tight p) := by
    rintro p ⟨⟨sh, found, -⟩, -⟩
    cases found
  refine ⟨⟨⟨?_, ?_, ?_, ?_⟩, noShape, noShape, noShape, noShape, noShape, ?_, ?_, ?_⟩, ?_⟩
  · exact show (4 : Nat) ≤ 30 by decide
  · exact (isTable_empty fun _ _ => rfl).of_iff fun p => iff_false_intro (noEntry p)
  · exact fun p inside => absurd inside (noEntry p)
  · exact fun p inside => absurd inside (noEntry p)
  · exact fun _ member => absurd member not_mem_nil
  · intro o obj there
    simp [emptyHeap, Heap.object] at there
  · exact fun _ held => by cases held
  · exact fun _ _ held => by cases held

def Maps.start (V : Type) : Maps V := ⟨[], false⟩

theorem refines_start : Refines (emptyHeap V) (Maps.start V) := by
  refine ⟨rfl, rfl, ?_, ?_⟩
  · intro o map is
    simp [Maps.map, Maps.start] at is
  · intro o _
    simp [emptyHeap, Heap.object]

theorem guard_ne_exception {atom : BitVec 32} {o : Nat} {f : OrderedMap V → Result × OrderedMap V}
    (result : ∀ map, (f map).1 ≠ .exception) : (state.guard atom (state.on o f)).1 ≠ .exception := by
  unfold Maps.guard Maps.on
  split
  · simp
  · split
    · simp
    · exact result _

theorem spec_ne_exception (op : Op V) (state : Maps V) : (op.spec state).1 ≠ .exception := by
  cases op with
  | newObject _ _ | freeArrayShape => simp [Op.spec]
  | initArrayShape _ _ | newArray _ _ | freeObject _ =>
    unfold Op.spec
    dsimp only
    split <;> simp
  | reserve _ _ _ | setPrototype _ _ _ =>
    unfold Op.spec Maps.on
    dsimp only
    split <;> simp
  | add _ _ _ _ _ | updateFlags _ _ _ _ | setValue _ _ _ =>
    refine guard_ne_exception fun map => ?_
    split <;> simp
  | delete _ _ _ =>
    refine guard_ne_exception fun map => ?_
    split
    · simp
    · split <;> simp

theorem Inv.mono {Q : Props → Prop} (inv : Inv P h) (weaker : ∀ props, P props → Q props) : Inv Q h :=
  ⟨inv.good.mono weaker, inv.array⟩

end Start

variable {ops : List (Op V)} {limit : Nat}

section Runs

variable [Inhabited V]

def RunFits (fits sizes : Nat → Prop) : List (Op V) → Heap V → Prop
  | [], _ => True
  | op :: ops, h => op.Fits fits sizes h ∧ ∀ r h', step op h = some (r, h') → RunFits fits sizes ops h'

theorem run_spec (closed : Closed P fits sizes) (inv : Inv P h) (state : Maps V) (fitting : RunFits fits sizes ops h) :
    ∃ results h', run ops h = some (results, h') ∧ Inv P h' ∧ ((∀ {props}, P props → Chained props) → Refines h state →
      ∃ state', follow ops results state = some state' ∧ Refines h' state') := by
  induction ops generalizing h state with
  | nil => exact ⟨[], h, rfl, inv, fun _ refines => ⟨state, rfl, refines⟩⟩
  | cons op ops ih =>
    obtain ⟨r, h1, called, inv1, -, agrees⟩ := step_spec closed inv state fitting.1
    obtain ⟨results, h', ran, inv', follows⟩ :=
      ih inv1 (if r = .exception then state else (op.spec state).2) (fitting.2 r h1 called)
    refine ⟨r :: results, h', by simp [run, called, ran], inv', fun chained refines => ?_⟩
    rcases agrees chained refines with ⟨failed, refines1⟩ | ⟨done, refines1⟩
    · rw [if_pos failed] at follows
      simp only [follow, if_pos failed]
      exact follows chained refines1
    · have fine : r ≠ .exception := done ▸ spec_ne_exception op state
      rw [if_neg fine] at follows
      simp only [follow, if_neg fine, if_pos done]
      exact follows chained refines1

theorem closed_linked : Closed Linked (fun _ => True) fun _ => True where
  one := trivial
  sized := id
  linked := id
  empty := fun _ => linked_emptyProps ⟨2, rfl⟩
  resized := fun linked enough _ _ => resizedProps_linked linked enough
  appended := fun _ _ linked _ live room _ => appended_linked linked room live
  removed := by
    intro props atom i lpr pr linked live loop present
    obtain ⟨-, -, -, -, ⟨found, isThere, isAtom⟩, front⟩ := deleteLoop_found linked loop
    rw [present] at isThere
    cases isThere
    exact (removed_linked linked present (isAtom ▸ live) fun l is => (front l is).1).1
  flagged := by
    intro props props' i flags linked changed
    obtain ⟨pr, -, -, -, keeps, -⟩ := setFlags_of_eq changed
    exact keeps linked
  compacted := fun linked _ => compacted_linked linked

theorem runFits_true (ops : List (Op V)) (h : Heap V) : RunFits (fun _ => True) (fun _ => True) ops h := by
  induction ops generalizing h with
  | nil => trivial
  | cons op ops ih =>
    refine ⟨?_, fun _ h' _ => ih h'⟩
    cases op <;> simp [Op.Fits]

def Limited (limit : Nat) (props : Props) : Prop := Linked props ∧ props.entries.length ≤ limit

theorem closed_limited (positive : 1 ≤ limit) : Closed (Limited limit) (· ≤ limit) fun _ => True where
  one := positive
  sized := fun _ => trivial
  linked := And.left
  empty := fun _ => ⟨linked_emptyProps ⟨2, rfl⟩, Nat.zero_le _⟩
  resized := by
    intro props count limited enough _ _
    exact ⟨resizedProps_linked limited.1 enough, by rw [resizedProps_entries count limited.1]; exact limited.2⟩
  appended := by
    intro props old atom flags _ _ limited _ live room small
    refine ⟨appended_linked limited.1 room live, ?_⟩
    rwa [appended_entries, length_append, entries_length]
  removed := by
    intro props atom i lpr pr limited live loop present
    refine ⟨closed_linked.removed limited.1 live loop present, ?_⟩
    rw [entries_length, removed_length, ← entries_length]
    exact limited.2
  flagged := by
    intro props props' i flags limited changed
    obtain ⟨pr, entries, -⟩ := setFlags_of_eq changed
    exact ⟨closed_linked.flagged limited.1 changed, by rw [entries, length_set]; exact limited.2⟩
  compacted := by
    intro props limited _
    refine ⟨compacted_linked limited.1, ?_⟩
    rw [compacted_entries]
    exact Nat.le_trans (length_filter_le _ _) limited.2

theorem runFits_of_length {n : Nat} (inv : Inv (Limited n) h)
    (short : n + ops.length ≤ limit) : RunFits (· ≤ limit) (fun _ => True) ops h := by
  induction ops generalizing h n with
  | nil => trivial
  | cons op ops ih =>
    rw [length_cons] at short
    have small : ∀ {bound}, n + 1 ≤ bound → op.Fits (· ≤ bound) (fun _ => True) h := by
      intro bound enough
      cases op with
      | add o atom flags value mem =>
        intro obj sh site
        have few := (inv.good.props _ _ site.shape).2
        rw [entries_length] at few
        exact Nat.le_trans (Nat.succ_le_succ few) enough
      | _ => trivial
    have inv1 : Inv (Limited (n + 1)) h :=
      inv.mono fun props limited => ⟨limited.1, Nat.le_succ_of_le limited.2⟩
    obtain ⟨r, h', called, inv', -⟩ :=
      step_spec (closed_limited (Nat.succ_pos n)) inv1 (Maps.start V) (small (Nat.le_refl _))
    refine ⟨small (by omega), fun r2 h2 called2 => ?_⟩
    rw [called] at called2
    cases called2
    exact ih inv' (by omega)

/-- In every run in which no object gets more than `maxProps` properties, each object
denotes the map that the operations made on it define. -/
theorem run_refines_maps (ops : List (Op V)) (fitting : RunFits (· ≤ maxProps) (fun _ => True) ops (emptyHeap V)) :
    ∃ results heap state, run ops (emptyHeap V) = some (results, heap) ∧
      follow ops results (Maps.start V) = some state ∧ heap.objects.length = state.maps.length ∧ ∀ o,
      (state.map o = none → heap.object o = none) ∧ ∀ map, state.map o = some map → ∃ obj sh,
      heap.object o = some obj ∧ heap.shape obj.shape = some sh ∧ Denotes sh.toProps obj.prop map := by
  obtain ⟨results, heap, ran, inv, follows⟩ := run_spec closed_chained (inv_emptyHeap Chained) (Maps.start V) fitting
  obtain ⟨state, followed, refines⟩ := follows id refines_start
  refine ⟨results, heap, state, ran, followed, refines.size, fun o => ⟨refines.absent o, ?_⟩⟩
  intro map is
  obtain ⟨proto, obj, sh, site, rfl, -⟩ := refines.shows o map is
  exact ⟨obj, sh, site.object, site.shape, (inv.good.props _ _ site.shape).denotes obj.prop⟩

def memoryAt (p : Ptr) : Memory := ⟨true, true, true, some p, some (p + 1), some (p + 2), true⟩

theorem run_refines_maps_sharing :
    ∃ results heap state, run [.newObject 1 (memoryAt 0), .newObject 1 (memoryAt 3), .add 0 100 7 10 (memoryAt 6),
      .add 1 100 7 20 (memoryAt 9), .add 0 101 7 11 (memoryAt 12), .delete 1 100 (memoryAt 15),
      .updateFlags 0 100 0 (memoryAt 18)] (emptyHeap Nat) = some (results, heap) ∧ follow [.newObject 1 (memoryAt 0),
      .newObject 1 (memoryAt 3), .add 0 100 7 10 (memoryAt 6), .add 1 100 7 20 (memoryAt 9),
      .add 0 101 7 11 (memoryAt 12), .delete 1 100 (memoryAt 15),
      .updateFlags 0 100 0 (memoryAt 18)] results (Maps.start Nat) = some state ∧
      heap.objects.length = state.maps.length ∧ ∀ o, (state.map o = none → heap.object o = none) ∧ ∀ map,
      state.map o = some map → ∃ obj sh, heap.object o = some obj ∧ heap.shape obj.shape = some sh ∧
      Denotes sh.toProps obj.prop map :=
  run_refines_maps _ (runFits_of_length (inv_emptyHeap (Limited 0)) (by decide))

end Runs

section Isolation

/-- What a program can see through an object: its prototype, its properties and their values. -/
def Heap.view (h : Heap V) (o : Nat) : Option (BitVec 64 × Props × (Nat → V)) := do
  let obj ← h.object o
  let sh ← h.shape obj.shape
  some (sh.proto, sh.toProps, obj.prop)

theorem Frame.view {x : Holder} (frame : Frame x h h') (other : x ≠ .object o) : h'.view o = h.view o := by
  unfold Heap.view
  rw [frame.object o other]
  cases there : h.object o with
  | none => rfl
  | some obj =>
    have face := frame.face (.object o) obj.shape other.symm (by simp [Heap.held, there])
    simp only [bind_eq_bind, bind_some]
    cases was : h.shape obj.shape with
    | none =>
      rw [was, map_none, map_eq_none_iff] at face
      rw [face]
    | some old =>
      rw [was, map_some] at face
      obtain ⟨sh, found, same⟩ := map_eq_some_iff.mp face
      have props : sh.toProps = old.toProps := congrArg Prod.fst same
      have proto : sh.proto = old.proto := congrArg Prod.snd same
      rw [found, bind_some, bind_some, props, proto]

def Heap.linkedIn (h : Heap V) (p : Ptr) (b : Nat) : Prop :=
  ∃ nodes, Follows h.nextOf (h.shapeHash b) nodes ∧ p ∈ nodes

theorem Inv.linkedIn_iff {p : Ptr} {sh : Shape} {b : Nat} (inv : Inv P h) (found : h.shape p = some sh)
    (hashed : sh.isHashed = true) (small : b < 2 ^ h.shapeHashBits) :
    h.linkedIn p b ↔ b = getShapeHash sh.hash h.shapeHashBits := by
  have bucket : h.bucketOf h.shapeHashBits p = getShapeHash sh.hash h.shapeHashBits := by
    simp [Heap.bucketOf, found]
  obtain ⟨nodes, follows, members⟩ := inv.good.table.chains.chains b small
  constructor
  · rintro ⟨others, chain, member⟩
    rw [chain.unique follows, members p] at member
    exact (member.2.symm.trans bucket)
  · rintro rfl
    exact ⟨nodes, follows, (members p).mpr ⟨⟨⟨sh, found, hashed⟩, id⟩, bucket⟩⟩

variable [Inhabited V]

/-- Whatever has been done to the objects of a population that share shapes, each shape
with `is_hashed` is in the chain of its hash and in no other one, the hash is that of its
prototype and properties, and the next operation is seen only through the object it is
made on. -/
theorem run_isolates_objects (ops : List (Op V)) :
    ∃ results heap, run ops (emptyHeap V) = some (results, heap) ∧ (∀ p sh, heap.shape p = some sh →
      sh.isHashed = true → sh.hash = hashOf sh.proto sh.entries ∧
      getShapeHash sh.hash heap.shapeHashBits < 2 ^ heap.shapeHashBits ∧ ∀ b < 2 ^ heap.shapeHashBits,
      heap.linkedIn p b ↔ b = getShapeHash sh.hash heap.shapeHashBits) ∧ ∀ op : Op V, ∃ result heap',
      step op heap = some (result, heap') ∧ ∀ o, op.target heap ≠ .object o → heap'.view o = heap.view o := by
  obtain ⟨results, heap, ran, inv, -⟩ :=
    run_spec closed_linked (inv_emptyHeap Linked) (Maps.start V) (runFits_true ops (emptyHeap V))
  refine ⟨results, heap, ran, ?_, ?_⟩
  · intro p sh found hashed
    exact ⟨inv.good.hashes p sh found hashed, getShapeHash_lt _ inv.good.table.bits,
      fun b small => inv.linkedIn_iff found hashed small⟩
  · intro op
    obtain ⟨result, heap', called, -, frame, -⟩ := step_spec closed_linked inv (Maps.start V) (runFits_true [op] heap).1
    exact ⟨result, heap', called, fun o other => frame.view other⟩

end Isolation

end Shapes
