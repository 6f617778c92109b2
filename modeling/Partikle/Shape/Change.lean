import Partikle.Shape.Props

/-!
Growing a property table, adding a property and searching for one: `Linked` is kept
always, and `Chained` as long as there are at most `maxProps` properties.
-/

namespace Shapes

open HashChain List

variable {hashSize propSize : Nat} {props : Props}

theorem doubleUntil_pow (newSize fuel : Nat) (sized : ∃ k, hashSize = 2 ^ k) :
    ∃ k, doubleUntil newSize fuel hashSize = 2 ^ k := by
  induction fuel generalizing hashSize with
  | zero => exact sized
  | succ fuel ih =>
    simp only [doubleUntil]
    split
    · obtain ⟨k, rfl⟩ := sized
      exact ih ⟨k + 1, by rw [Nat.pow_succ, Nat.mul_comm]⟩
    · exact sized

theorem halveWhile_pow (newSize fuel : Nat) (positive : 0 < newSize) (sized : ∃ k, hashSize = 2 ^ k) :
    ∃ k, halveWhile newSize fuel hashSize = 2 ^ k := by
  induction fuel generalizing hashSize with
  | zero => exact sized
  | succ fuel ih =>
    simp only [halveWhile]
    split
    · obtain ⟨k, rfl⟩ := sized
      cases k with
      | zero => simp at *; omega
      | succ k => exact ih ⟨k, by rw [Nat.pow_succ, Nat.mul_div_cancel _ (by decide)]⟩
    · exact sized

theorem le_newPropSize (count propSize : Nat) : count ≤ newPropSize count propSize := Nat.le_max_left _ _

theorem liveAtoms_eq : props.liveAtoms = (props.entries.map Prod.fst).filter fun atom => atom ≠ JS_ATOM_NULL := by
  simp [Props.liveAtoms, Props.entries, Function.comp_def]

theorem countP_dead_eq :
    (props.prop.countP fun pr => pr.atom = JS_ATOM_NULL) =
      props.entries.countP fun entry => entry.1 = JS_ATOM_NULL := by
  simp [Props.entries, countP_map, Function.comp_def]

theorem entries_length : props.entries.length = props.prop.length := by simp [Props.entries]

section Empty

def emptyProps (hashSize propSize : Nat) : Props := ⟨[], propSize, 0, hashSize - 1, fun _ => 0⟩

theorem linked_emptyProps (sized : ∃ k, hashSize = 2 ^ k) : Linked (emptyProps hashSize propSize) := by
  refine ⟨Nat.zero_le _, ?_, fun _ => Nat.le_refl _, by simp [emptyProps], rfl⟩
  obtain ⟨k, rfl⟩ := sized
  exact ⟨k, Nat.sub_add_cancel (Nat.two_pow_pos k)⟩

theorem chained_emptyProps (sized : ∃ k, hashSize = 2 ^ k) : Chained (emptyProps hashSize propSize) :=
  ⟨linked_emptyProps sized, Nat.zero_le _, propTable_nil _, nodup_nil⟩

end Empty

section Resize

variable {count : Nat}

theorem grownHashSize_pow (count : Nat) (linked : Linked props) : ∃ k, grownHashSize count props = 2 ^ k :=
  doubleUntil_pow _ _ linked.sized

theorem Linked.relink (linked : Linked props) (mask : Nat) :
    (relink mask props.prop 0 fun _ => 0).1.map (fun pr => (pr.atom, pr.flags)) = props.entries ∧
      (∀ b, (relink mask props.prop 0 fun _ => 0).2 b ≤ props.prop.length) ∧ ∀ (i : Nat) (pr : ShapeProperty),
      (relink mask props.prop 0 fun _ => 0).1[i]? = some pr → pr.hashNext.toNat ≤ i := by
  obtain ⟨entries, heads, links⟩ := relink_spec props.prop 0
    (fun _ => Nat.le_refl _) (fun i pr present _ => by simpa using linked.links i pr present)
  exact ⟨entries, fun b => by simpa using heads b, fun i pr present => by simpa using links i pr present⟩

theorem resizedProps_entries (count : Nat) (linked : Linked props) :
    (resizedProps count props).entries = props.entries := by
  unfold resizedProps
  split
  · exact (linked.relink _).1
  · rfl

theorem resizedProps_size (count : Nat) (props : Props) :
    (resizedProps count props).propSize = newPropSize count props.propSize := by
  unfold resizedProps
  split <;> rfl

theorem resizedProps_linked (linked : Linked props) (enough : props.prop.length ≤ count) :
    Linked (resizedProps count props) := by
  have entries := resizedProps_entries count linked
  have length : (resizedProps count props).prop.length = props.prop.length := by
    rw [← entries_length, entries, entries_length]
  refine ⟨?_, ?_, ?_, ?_, ?_⟩
  · rw [length, resizedProps_size]
    exact Nat.le_trans enough (le_newPropSize count props.propSize)
  · unfold resizedProps
    split
    · obtain ⟨k, power⟩ := grownHashSize_pow count linked
      exact ⟨k, by rw [power, Nat.sub_add_cancel (Nat.two_pow_pos k)]⟩
    · exact linked.sized
  · intro b
    rw [length]
    unfold resizedProps
    split
    · exact (linked.relink _).2.1 b
    · exact linked.heads b
  · intro i pr
    unfold resizedProps
    split
    · exact (linked.relink _).2.2 i pr
    · exact linked.links i pr
  · rw [countP_dead_eq, entries, ← countP_dead_eq, ← linked.deleted]
    unfold resizedProps
    split <;> rfl

theorem resizedProps_chained (chained : Chained props) (enough : props.prop.length ≤ count) :
    Chained (resizedProps count props) := by
  have entries := resizedProps_entries count chained.linked
  refine ⟨resizedProps_linked chained.linked enough, ?_, ?_, ?_⟩
  · rw [← entries_length, entries, entries_length]
    exact chained.small
  · unfold resizedProps
    split
    · have built := relink_table [] props.prop (propTable_nil (grownHashSize count props - 1))
        (fun _ => Nat.le_refl _) (by simpa using chained.small)
      simpa using built
    · exact chained.chains
  · rw [liveAtoms_eq, entries, ← liveAtoms_eq]
    exact chained.distinct

end Resize

section Append

variable {props' : Props} {atom : BitVec 32} {flags : BitVec 6}

def appended (atom : BitVec 32) (flags : BitVec 6) (props : Props) : Props :=
  { props with
    prop := props.prop ++ [⟨BitVec.ofNat 26 (props.propHash (props.bucket atom)), flags, atom⟩]
    propHash := Function.update props.propHash (props.bucket atom) (props.prop.length + 1) }

theorem appendProp_eq (room : props.prop.length < props.propSize) :
    appendProp atom flags props = some (appended atom flags props) := by
  simp [appendProp, appended, room]

theorem appended_entries : (appended atom flags props).entries = props.entries ++ [(atom, flags)] := by
  simp [appended, Props.entries]

theorem appended_linked (linked : Linked props) (room : props.prop.length < props.propSize)
    (live : atom ≠ JS_ATOM_NULL) : Linked (appended atom flags props) := by
  refine ⟨?_, linked.sized, ?_, ?_, ?_⟩
  · simp only [appended, length_append, length_singleton]
    omega
  · intro b
    simp only [appended, length_append, length_singleton]
    exact update_le linked.heads b
  · intro i pr present
    simp only [appended] at present
    by_cases inside : i < props.prop.length
    · rw [getElem?_append_left inside] at present
      exact linked.links i pr present
    · have last : i = props.prop.length := by
        have bound := (List.getElem?_eq_some_iff.mp present).1
        simp at bound
        omega
      subst last
      rw [getElem?_concat_length] at present
      cases present
      exact Nat.le_trans (Nat.mod_le _ _) (linked.heads _)
  · have old := linked.deleted
    simp only [appended, countP_append, countP_singleton, live, decide_false, Bool.false_eq_true, if_false]
    omega

theorem appended_chained (chained : Chained props) (room : props.prop.length < props.propSize)
    (live : atom ≠ JS_ATOM_NULL) (small : props.prop.length < maxProps) (absent : atom ∉ props.liveAtoms) :
    Chained (appended atom flags props) := by
  refine ⟨appended_linked chained.linked room live, ?_, ?_, ?_⟩
  · simp only [appended, length_append, length_singleton]
    exact small
  · have head := chained.linked.heads (props.bucket atom)
    exact PropTable.push chained.chains live (Nat.lt_of_le_of_lt head small) rfl
  · have atoms : (appended atom flags props).liveAtoms = props.liveAtoms ++ [atom] := by
      simp [appended, Props.liveAtoms, live]
    rw [atoms]
    refine nodup_append.mpr ⟨chained.distinct, nodup_singleton _, ?_⟩
    intro a member b same
    rw [mem_singleton] at same
    rintro rfl
    exact absent (same ▸ member)

end Append

section Find

variable {atom : BitVec 32}

theorem hasAtom_iff {prop : List ShapeProperty} {i : Nat} :
    hasAtom prop atom i = true ↔ ∃ pr, prop[i]? = some pr ∧ pr.atom = atom := by
  simp [hasAtom, Option.any_eq_true]

theorem findOwnProperty_total (linked : Linked props) (atom : BitVec 32) :
    ∃ result, findOwnProperty props atom = some result ∧ ∀ i, result = some i → ∃ pr, props.prop[i]? = some pr ∧
      pr.atom = atom := by
  obtain ⟨nodes, follows, length, members⟩ := follows_of_links linked.links (linked.heads (props.bucket atom))
  have bound := linked.heads (props.bucket atom)
  have inside : ∀ node ∈ nodes, node < props.prop.length :=
    fun node member => Nat.lt_of_lt_of_le (members node member) bound
  refine ⟨_, findLoop_spec follows inside (by omega), ?_⟩
  intro i found
  exact hasAtom_iff.mp (find?_some found)

theorem mem_liveAtoms {a : BitVec 32} :
    a ∈ props.liveAtoms ↔ a ≠ JS_ATOM_NULL ∧ ∃ (i : Nat) (pr : ShapeProperty), props.prop[i]? = some pr ∧
      pr.atom = a := by
  simp only [Props.liveAtoms, mem_filter, mem_map, decide_eq_true_eq, ne_eq]
  constructor
  · rintro ⟨⟨pr, member, same⟩, live⟩
    obtain ⟨i, present⟩ := mem_iff_getElem?.mp member
    exact ⟨live, i, pr, present, same⟩
  · rintro ⟨live, i, pr, present, same⟩
    exact ⟨⟨pr, mem_of_getElem? present, same⟩, live⟩

theorem findOwnProperty_chained (chained : Chained props) (live : atom ≠ JS_ATOM_NULL) :
    ∃ result, findOwnProperty props atom = some result ∧ (result = none ↔ atom ∉ props.liveAtoms) ∧
      ∀ i, result = some i → ∃ pr, props.prop[i]? = some pr ∧ pr.atom = atom := by
  obtain ⟨nodes, follows, members⟩ := chained.chains.chains (props.bucket atom) (and_mask_lt _ _)
  obtain ⟨others, follows', length, below⟩ :=
    follows_of_links chained.linked.links (chained.linked.heads (props.bucket atom))
  obtain rfl := follows.unique follows'
  have bound := chained.linked.heads (props.bucket atom)
  have inside : ∀ node ∈ nodes, node < props.prop.length :=
    fun node member => Nat.lt_of_lt_of_le (below node member) bound
  refine ⟨_, findLoop_spec follows inside (by omega), ?_, ?_⟩
  · rw [find?_eq_none, mem_liveAtoms]
    constructor
    · rintro absent ⟨-, i, pr, present, rfl⟩
      have member : i ∈ nodes := by
        refine (members i).mpr ⟨⟨pr, present, live⟩, ?_⟩
        simp [bucketIn, present, Props.bucket]
      exact absent i member (hasAtom_iff.mpr ⟨pr, present, rfl⟩)
    · intro absent i _ has
      obtain ⟨pr, present, same⟩ := hasAtom_iff.mp has
      exact absent ⟨live, i, pr, present, same⟩
  · intro i found
    exact hasAtom_iff.mp (find?_some found)

end Find

end Shapes
