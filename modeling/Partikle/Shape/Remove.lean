import Partikle.Shape.Change

/-!
Deleting a property, changing its flags, and compacting the table.
-/

namespace Shapes

open HashChain Function List Option

section Remove

variable {props props' : Props} {atom : BitVec 32} {i : Nat} {lpr : Option Nat}

def deadProp (pr : ShapeProperty) : ShapeProperty := { pr with flags := 0, atom := JS_ATOM_NULL }

theorem filter_set_sublist {α : Type} {keep : α → Bool} {a : α} (dropped : keep a = false)
    (l : List α) (i : Nat) : ((l.set i a).filter keep).Sublist (l.filter keep) := by
  induction l generalizing i with
  | nil => simp
  | cons first rest ih =>
    cases i with
    | zero =>
      simp only [set_cons_zero, filter_cons, dropped, Bool.false_eq_true, if_false]
      split
      · exact sublist_cons_self _ _
      · exact Sublist.refl _
    | succ i =>
      simp only [set_cons_succ, filter_cons]
      split
      · exact (ih i).cons_cons _
      · exact ih i

theorem deleteLoop_found (linked : Linked props)
    (found : deleteLoop props.prop atom (props.prop.length + 1) none (props.propHash (props.bucket atom)) = some
      (some (i, lpr))) : ∃ before after,
      Follows (nextIn props.prop) (linkIndex (props.propHash (props.bucket atom))) (before ++ i :: after) ∧
      lpr = before.getLast? ∧ (∃ pr, props.prop[i]? = some pr ∧ pr.atom = atom) ∧ ∀ l, lpr = some l → i < l ∧ ∃ pr,
      props.prop[l]? = some pr := by
  have bound := linked.heads (props.bucket atom)
  obtain ⟨nodes, follows, length, below⟩ := follows_of_links linked.links bound
  have inside : ∀ node ∈ nodes, node < props.prop.length :=
    fun node member => Nat.lt_of_lt_of_le (below node member) bound
  rcases @deleteLoop_spec _ atom _ _ (props.prop.length + 1) none follows inside (by omega) with
    ⟨absent, -⟩ | ⟨before, node, after, rfl, has, result⟩
  · rw [absent] at found
    cases found
  rw [result] at found
  simp only [some.injEq, Prod.mk.injEq, or_none] at found
  obtain ⟨rfl, rfl⟩ := found
  refine ⟨before, after, follows, rfl, hasAtom_iff.mp has, ?_⟩
  intro l last
  obtain ⟨pr, present⟩ := exists_getElem? (inside l (by
    simp only [mem_append]
    exact .inl (mem_of_getLast? last)))
  refine ⟨?_, pr, present⟩
  obtain ⟨front, rfl⟩ := getLast?_eq_some_iff.mp last
  simp only [append_assoc, singleton_append] at follows
  obtain ⟨-, behind⟩ := follows.behind
  rw [nextIn_eq present] at behind
  have number := linkIndex_eq_some.mp behind.1
  have := linked.links l pr present
  omega

def setNext (l : Nat) (next : BitVec 26) (prop : List ShapeProperty) : List ShapeProperty :=
  match prop[l]? with
  | none => prop
  | some pr => prop.set l { pr with hashNext := next }

theorem set_eq_modify {α : Type} {l : List α} {i : Nat} {a : α} (present : l[i]? = some a) (f : α → α) :
    l.set i (f a) = l.modify i f := by
  rw [modify_eq_set_getElem?, present]
  rfl

theorem map_modify_of_eq {α β : Type} {f : α → α} {g : α → β} (keeps : ∀ a, g (f a) = g a) (l : List α) (i : Nat) :
    (l.modify i f).map g = l.map g := by
  apply ext_getElem?
  intro k
  rw [getElem?_map, getElem?_modify, getElem?_map]
  cases l[k]? with
  | none => rfl
  | some a => by_cases same : i = k <;> simp [same, keeps]

theorem setNext_eq (l : Nat) (next : BitVec 26) (prop : List ShapeProperty) :
    setNext l next prop = prop.modify l fun pr => { pr with hashNext := next } := by
  unfold setNext
  cases present : prop[l]? with
  | none => rw [modify_eq_set_getElem?, present]; rfl
  | some pr => exact set_eq_modify present fun pr => { pr with hashNext := next }

variable {l h1 j mask : Nat} {next : BitVec 26} {prop prop' : List ShapeProperty} {pr : ShapeProperty}

section Fields

variable (atoms : prop'.map ShapeProperty.atom = prop.map ShapeProperty.atom)

include atoms

theorem liveIn_congr : liveIn prop' j ↔ liveIn prop j := by
  have iff : ∀ prop, liveIn prop j ↔ ∃ atom, (prop.map ShapeProperty.atom)[j]? = some atom ∧ atom ≠ JS_ATOM_NULL := by
    simp [liveIn]
  rw [iff, atoms, ← iff]

theorem bucketIn_congr : bucketIn mask prop' j = bucketIn mask prop j := by
  have eq : ∀ prop, bucketIn mask prop j =
      ((prop.map ShapeProperty.atom)[j]?.map fun atom => atom.toNat &&& mask).getD 0 := by
    simp [bucketIn, comp_def]
  rw [eq, atoms, ← eq]

theorem countP_dead_congr :
    (prop'.countP fun pr => pr.atom = JS_ATOM_NULL) = prop.countP fun pr => pr.atom = JS_ATOM_NULL := by
  have same := congrArg (countP fun atom => atom = JS_ATOM_NULL) atoms
  simpa [comp_def] using same

end Fields

section Next

variable (links : prop'.map ShapeProperty.hashNext = prop.map ShapeProperty.hashNext)

include links

theorem nextIn_congr : nextIn prop' j = nextIn prop j := by
  have eq : ∀ prop, nextIn prop j = (prop.map ShapeProperty.hashNext)[j]?.bind fun next => linkIndex next.toNat := by
    simp [nextIn, bind_map]
  rw [eq, links, ← eq]

theorem hashNext_congr (now : prop'[j]? = some pr) : ∃ old, prop[j]? = some old ∧ pr.hashNext = old.hashNext := by
  have there : (prop'.map ShapeProperty.hashNext)[j]? = some pr.hashNext := by simp [now]
  rw [links, getElem?_map, map_eq_some_iff] at there
  exact there.imp fun _ is => ⟨is.1, is.2.symm⟩

end Next

theorem setNext_atoms (l : Nat) (next : BitVec 26) (prop : List ShapeProperty) :
    (setNext l next prop).map ShapeProperty.atom = prop.map ShapeProperty.atom := by
  rw [setNext_eq]
  exact map_modify_of_eq (fun _ => by rfl) prop l

theorem setNext_getElem? {k : Nat} (other : k ≠ l) : (setNext l next prop)[k]? = prop[k]? := by
  simp [setNext_eq, other.symm]

theorem setNext_self (present : prop[l]? = some pr) :
    (setNext l next prop)[l]? = some { pr with hashNext := next } := by
  simp [setNext_eq, present]

theorem setNext_length (l : Nat) (next : BitVec 26) (prop : List ShapeProperty) :
    (setNext l next prop).length = prop.length := by
  simp [setNext_eq]

theorem set_dead_links (present : prop[i]? = some pr) :
    (prop.set i (deadProp pr)).map ShapeProperty.hashNext = prop.map ShapeProperty.hashNext := by
  rw [set_eq_modify present deadProp]
  exact map_modify_of_eq (fun _ => by rfl) prop i

theorem set_dead (present : prop[i]? = some pr) (live : pr.atom ≠ JS_ATOM_NULL) :
    (prop.set i (deadProp pr)).map (fun pr => (pr.atom, pr.flags)) = (prop.map fun pr => (pr.atom, pr.flags)).set i
      (JS_ATOM_NULL, 0) ∧ ((prop.set i (deadProp pr)).countP fun pr => pr.atom = JS_ATOM_NULL) =
      (prop.countP fun pr => pr.atom = JS_ATOM_NULL) + 1 := by
  obtain ⟨inside, rfl⟩ := List.getElem?_eq_some_iff.mp present
  refine ⟨by simp [deadProp], ?_⟩
  rw [countP_set inside]
  simp [deadProp, live]

def removed (i : Nat) (lpr : Option Nat) (h1 : Nat) (pr : ShapeProperty) (props : Props) : Props :=
  match lpr with
  | none =>
    { props with
      prop := props.prop.set i (deadProp pr)
      propHash := update props.propHash h1 pr.hashNext.toNat
      deletedPropCount := props.deletedPropCount + 1 }
  | some l =>
    { props with
      prop := (setNext l pr.hashNext props.prop).set i (deadProp pr)
      deletedPropCount := props.deletedPropCount + 1 }

theorem removed_size : (removed i lpr h1 pr props).propSize = props.propSize := by
  cases lpr <;> rfl

theorem removed_length : (removed i lpr h1 pr props).prop.length = props.prop.length := by
  cases lpr <;> simp [removed, setNext_length]

theorem removed_linked (linked : Linked props) (present : props.prop[i]? = some pr) (live : pr.atom ≠ JS_ATOM_NULL)
    (front : ∀ l, lpr = some l → i < l) : Linked (removed i lpr h1 pr props) ∧
      (removed i lpr h1 pr props).entries = props.entries.set i (JS_ATOM_NULL, 0) := by
  have down := linked.links i pr present
  have inside := (List.getElem?_eq_some_iff.mp present).1
  have deleted := linked.deleted
  cases lpr with
  | none =>
    obtain ⟨entries, count⟩ := set_dead present live
    refine ⟨⟨?_, linked.sized, ?_, ?_, ?_⟩, entries⟩
    · simpa [removed] using linked.room
    · intro b
      simp only [removed, length_set]
      rcases eq_or_ne b h1 with rfl | own
      · rw [update_self]
        omega
      · rw [update_of_ne own]
        exact linked.heads b
    · intro k p now
      obtain ⟨old, was, same⟩ := hashNext_congr (set_dead_links present) now
      rw [same]
      exact linked.links k old was
    · simp only [removed]
      omega
  | some l =>
    have above := front l rfl
    have present' : (setNext l pr.hashNext props.prop)[i]? = some pr := by rwa [setNext_getElem? (by omega)]
    obtain ⟨entries, count⟩ := set_dead present' live
    have sameDead := countP_dead_congr (setNext_atoms l pr.hashNext props.prop)
    refine ⟨⟨?_, linked.sized, ?_, ?_, ?_⟩, ?_⟩
    · simpa [removed, setNext_length] using linked.room
    · intro b
      simpa [removed, setNext_length] using linked.heads b
    · intro k p now
      obtain ⟨old, was, same⟩ := hashNext_congr (set_dead_links present') now
      rw [same]
      rcases eq_or_ne k l with rfl | own
      · cases before : props.prop[k]? with
        | none => simp [setNext, before] at was
        | some pl =>
          rw [setNext_self before] at was
          cases was
          simp only
          omega
      · rw [setNext_getElem? own] at was
        exact linked.links k old was
    · simp only [removed]
      omega
    · rw [Props.entries, removed]
      rw [entries, setNext_eq, map_modify_of_eq fun _ => by rfl]
      rfl

theorem liveIn_set_dead : liveIn (prop.set i (deadProp pr)) j ↔ liveIn prop j ∧ j ≠ i := by
  unfold liveIn
  rw [getElem?_set]
  rcases eq_or_ne i j with rfl | same
  · constructor
    · rintro ⟨p, now, live⟩
      by_cases inside : i < prop.length
      · simp only [if_true, inside, some.injEq] at now
        subst now
        exact absurd rfl live
      · simp [inside] at now
    · rintro ⟨-, other⟩
      exact absurd rfl other
  · simp [same, Ne.symm same]

theorem bucketIn_set_dead (other : j ≠ i) : bucketIn mask (prop.set i (deadProp pr)) j = bucketIn mask prop j := by
  simp [bucketIn, other.symm]

section

variable {before after : List Nat} (chained : Chained props)
  (follows : Follows (nextIn props.prop) (linkIndex (props.propHash (props.bucket pr.atom))) (before ++ i :: after))
  (present : props.prop[i]? = some pr)

include chained follows present

theorem removed_chains :
    PropTable (removed i before.getLast? (props.bucket pr.atom) pr props).propHashMask (removed i before.getLast?
    (props.bucket pr.atom) pr props).prop (removed i before.getLast? (props.bucket pr.atom) pr props).propHash := by
  have bucket : bucketIn props.propHashMask props.prop i = props.bucket pr.atom := by
    simp [bucketIn, present, Props.bucket]
  have chain := follows
  rw [← bucket] at chain
  have next := nextIn_eq present
  rcases eq_nil_or_concat before with rfl | ⟨front, l, rfl⟩
  · have rest := follows.2
    rw [next] at rest
    have taken : IsTable (nextIn props.prop) (fun b => linkIndex
        (update props.propHash (props.bucket pr.atom) pr.hashNext.toNat b))
        (props.propHashMask + 1) (bucketIn props.propHashMask props.prop)
        fun j => liveIn props.prop j ∧ j ≠ i := by
      refine chained.chains.remove chain ?_ (fun _ _ _ => rfl) ?_
      · rw [bucket]
        simpa using rest
      · intro b _ other
        rw [bucket] at other
        simp [other]
    exact taken.congr (fun j => liveIn_set_dead) (fun j _ => nextIn_congr (set_dead_links present))
      (fun _ _ => rfl) (fun j entry => bucketIn_set_dead entry.2)
  · simp only [concat_eq_append, getLast?_append, getLast?_singleton, some_or] at chain ⊢
    simp only [concat_eq_append, append_assoc, singleton_append] at follows
    have unique := follows.nodup
    have outside : l ∉ i :: after := (nodup_cons.mp unique.of_append_right).1
    have different : i ≠ l := fun same => outside (by simp [same])
    have linkL : ∃ pl, props.prop[l]? = some pl := by
      have behind := follows.behind.2.1
      cases presentL : props.prop[l]? with
      | none => simp [nextIn, presentL] at behind
      | some pl => exact ⟨pl, rfl⟩
    obtain ⟨pl, presentL⟩ := linkL
    have present' : (setNext l pr.hashNext props.prop)[i]? = some pr := by rwa [setNext_getElem? different]
    have links : ∀ j, nextIn (setNext l pr.hashNext props.prop) j =
        update (nextIn props.prop) l (nextIn props.prop i) j := by
      intro j
      rcases eq_or_ne j l with rfl | same
      · rw [update_self, next, nextIn_eq (setNext_self presentL)]
      · rw [update_of_ne same, nextIn, setNext_getElem? same]
        rfl
    have taken : IsTable (nextIn (setNext l pr.hashNext props.prop))
        (fun b => linkIndex (props.propHash b)) (props.propHashMask + 1)
        (bucketIn props.propHashMask props.prop) fun j => liveIn props.prop j ∧ j ≠ i := by
      refine chained.chains.remove chain ?_ ?_ (fun _ _ _ => rfl)
      · rw [bucket, append_assoc, singleton_append]
        exact (Follows.unlink follows).congr fun j _ => links j
      · intro j _ elsewhere
        rw [links]
        apply update_of_ne
        rintro rfl
        apply elsewhere
        rw [bucket]
        have small : props.bucket pr.atom < props.propHashMask + 1 := and_mask_lt _ _
        obtain ⟨nodes, others, members⟩ := chained.chains.chains _ small
        have same := others.unique follows
        subst same
        exact ((members j).mp (by simp)).2
    refine taken.congr ?_ ?_ (fun _ _ => rfl) ?_
    · intro j
      exact liveIn_set_dead.trans (and_congr_left' (liveIn_congr (setNext_atoms l pr.hashNext props.prop)))
    · intro j _
      exact nextIn_congr (set_dead_links present')
    · intro j entry
      exact (bucketIn_set_dead entry.2).trans (bucketIn_congr (setNext_atoms l pr.hashNext props.prop))

theorem removed_chained (live : pr.atom ≠ JS_ATOM_NULL) (front : ∀ l, before.getLast? = some l → i < l) :
    Chained (removed i before.getLast? (props.bucket pr.atom) pr props) := by
  obtain ⟨linked, entries⟩ := removed_linked chained.linked present live front
  have length := congrArg length entries
  rw [length_set, entries_length, entries_length] at length
  refine ⟨linked, by rw [length]; exact chained.small, removed_chains chained follows present, ?_⟩
  rw [liveAtoms_eq, entries, map_set]
  apply Nodup.sublist (filter_set_sublist (by simp) _ _)
  rw [← liveAtoms_eq]
  exact chained.distinct

end

end Remove

section Flags

variable {props : Props} {flags : BitVec 6} {i : Nat} {pr : ShapeProperty}

theorem setFlags_spec (present : props.prop[i]? = some pr) :
    ∃ props', setFlags i flags props = some props' ∧ props'.propSize = props.propSize ∧
      props'.entries = props.entries.set i (pr.atom, flags) ∧ (Linked props → Linked props') ∧
      (Chained props → Chained props') := by
  let prop' := props.prop.set i { pr with flags := flags }
  have modified : prop' = props.prop.modify i fun pr => { pr with flags := flags } :=
    set_eq_modify present fun pr => { pr with flags := flags }
  have atoms : prop'.map ShapeProperty.atom = props.prop.map ShapeProperty.atom := by
    rw [modified]
    exact map_modify_of_eq (fun _ => by rfl) props.prop i
  have links : prop'.map ShapeProperty.hashNext = props.prop.map ShapeProperty.hashNext := by
    rw [modified]
    exact map_modify_of_eq (fun _ => by rfl) props.prop i
  have keeps : Linked props → Linked { props with prop := prop' } := by
    intro linked
    refine ⟨by simpa [prop'] using linked.room, linked.sized, ?_, ?_, ?_⟩
    · intro b
      simpa [prop'] using linked.heads b
    · intro k p now
      obtain ⟨old, was, next⟩ := hashNext_congr links now
      rw [next]
      exact linked.links k old was
    · exact linked.deleted.trans (countP_dead_congr atoms).symm
  refine ⟨{ props with prop := prop' }, by simp [setFlags, present, prop'], rfl, ?_, keeps, ?_⟩
  · simp [Props.entries, prop']
  · intro chained
    refine ⟨keeps chained.linked, by simpa [prop'] using chained.small, ?_, ?_⟩
    · exact IsTable.congr chained.chains (fun _ => liveIn_congr atoms) (fun _ _ => nextIn_congr links) (fun _ _ => rfl)
        fun _ _ => bucketIn_congr atoms
    · rw [Props.liveAtoms, atoms]
      exact chained.distinct

end Flags

section Compact

variable {V : Type} {props : Props} {values : Nat → V}

def moveValues : List ShapeProperty → Nat → Nat → (Nat → V) → Nat → V
  | [], _, _, values => values
  | pr :: rest, i, j, values =>
    if pr.atom ≠ JS_ATOM_NULL then moveValues rest (i + 1) (j + 1) (update values j (values i))
    else moveValues rest (i + 1) j values

def isLive (pr : ShapeProperty) : Bool := pr.atom ≠ JS_ATOM_NULL

theorem compactLoop_eq (mask : Nat) (l : List ShapeProperty) (i j : Nat) (hash : Nat → Nat) (values : Nat → V) :
    compactLoop mask l i j hash values = ((relink mask (l.filter isLive) j hash).1, (relink mask (l.filter isLive) j
    hash).2, moveValues l i j values) := by
  induction l generalizing i j hash values with
  | nil => rfl
  | cons pr rest ih =>
    by_cases live : pr.atom = JS_ATOM_NULL
    · simp [compactLoop, moveValues, isLive, live, ih]
    · simp [compactLoop, moveValues, isLive, live, ih, relink]

theorem length_filter_isLive (linked : Linked props) :
    (props.prop.filter isLive).length + props.deletedPropCount = props.prop.length := by
  rw [linked.deleted]
  have split := length_eq_countP_add_countP isLive (l := props.prop)
  rw [← countP_eq_length_filter]
  have same : (props.prop.countP fun pr => pr.atom = JS_ATOM_NULL) = props.prop.countP fun pr => ¬isLive pr = true := by
    simp [isLive]
  omega

def compacted (props : Props) : Props :=
  ⟨(relink (shrunkHashSize props - 1) (props.prop.filter isLive) 0 fun _ => 0).1, compactSize props, 0,
    shrunkHashSize props - 1, (relink (shrunkHashSize props - 1) (props.prop.filter isLive) 0 fun _ => 0).2⟩

theorem relink_live (mask : Nat) (props : Props) :
    (relink mask (props.prop.filter isLive) 0 fun _ => 0).1.map (fun pr => (pr.atom, pr.flags)) =
      (props.prop.filter isLive).map (fun pr => (pr.atom, pr.flags)) ∧ (∀ b,
      (relink mask (props.prop.filter isLive) 0 fun _ => 0).2 b ≤ (props.prop.filter isLive).length) ∧
      ∀ (i : Nat) (pr : ShapeProperty), (relink mask (props.prop.filter isLive) 0 fun _ => 0).1[i]? = some pr →
      pr.hashNext.toNat ≤ i := by
  obtain ⟨entries, heads, links⟩ := @relink_spec mask (fun _ => 0) (props.prop.filter isLive) 0
    (fun _ => Nat.le_refl _) (fun k pr present dead => by
      have live := (mem_filter.mp (mem_of_getElem? present)).2
      simp [isLive, dead] at live)
  exact ⟨entries, fun b => by simpa using heads b, fun i pr present => by simpa using links i pr present⟩

theorem compacted_entries : (compacted props).entries = props.entries.filter fun entry => entry.1 ≠ JS_ATOM_NULL := by
  have entries := (relink_live (shrunkHashSize props - 1) props).1
  simp only [Props.entries, compacted]
  rw [entries, List.filter_map]
  rfl

theorem compactedProps_eq (linked : Linked props) (values : Nat → V) :
    compactedProps props values = some (compacted props, moveValues props.prop 0 0 values) := by
  have length := congrArg length (relink_live (shrunkHashSize props - 1) props).1
  simp only [length_map] at length
  have count := length_filter_isLive linked
  simp only [compactedProps, compactLoop_eq]
  rw [if_pos (by rwa [length])]
  rfl

theorem compacted_linked (linked : Linked props) : Linked (compacted props) := by
  obtain ⟨entries, heads, links⟩ := relink_live (shrunkHashSize props - 1) props
  have length := congrArg length entries
  simp only [length_map] at length
  refine ⟨?_, ?_, ?_, links, ?_⟩
  · have := length_filter_isLive linked
    simp only [compacted, compactSize, JS_PROP_INITIAL_SIZE]
    omega
  · obtain ⟨k, power⟩ : ∃ k, shrunkHashSize props = 2 ^ k :=
      halveWhile_pow _ _ (by unfold compactSize JS_PROP_INITIAL_SIZE; omega) linked.sized
    exact ⟨k, by simp only [compacted]; rw [power, Nat.sub_add_cancel (Nat.two_pow_pos k)]⟩
  · intro b
    simp only [compacted]
    rw [length]
    exact heads b
  · rw [countP_dead_eq, compacted_entries, countP_filter]
    simp [compacted]

theorem compacted_chained (chained : Chained props) : Chained (compacted props) := by
  have count := length_filter_isLive chained.linked
  have small := chained.small
  have length := congrArg length (relink_live (shrunkHashSize props - 1) props).1
  simp only [length_map] at length
  refine ⟨compacted_linked chained.linked, ?_, ?_, ?_⟩
  · simp only [compacted]
    omega
  · have built := relink_table [] (props.prop.filter isLive) (propTable_nil (shrunkHashSize props - 1))
      (fun _ => Nat.le_refl _) (by simp only [length_nil]; omega)
    exact built
  · have atoms : (compacted props).liveAtoms = props.liveAtoms := by
      rw [liveAtoms_eq, liveAtoms_eq, compacted_entries, List.filter_map, List.filter_map, List.filter_filter]
      simp [comp_def]
    rw [atoms]
    exact chained.distinct

end Compact

end Shapes
