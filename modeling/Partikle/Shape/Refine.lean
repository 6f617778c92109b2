import Partikle.Shape.Create

/-!
The pair of shape and value array denotes an insertion-ordered map, as long as no object
gets more properties than `hash_next` can number.
-/

namespace Shapes

open HashChain Option List

variable {V : Type}

section Spec

structure Maps (V : Type) where
  maps : List (Option (OrderedMap V))
  array : Bool

def Maps.map (state : Maps V) (o : Nat) : Option (OrderedMap V) := state.maps[o]?.join

def Maps.on (state : Maps V) (o : Nat) (f : OrderedMap V → Result × OrderedMap V) : Result × Maps V :=
  match state.map o with
  | none => (.false, state)
  | some map => ((f map).1, { state with maps := state.maps.set o (some (f map).2) })

def Maps.guard (state : Maps V) (atom : BitVec 32) (next : Result × Maps V) : Result × Maps V :=
  if atom = JS_ATOM_NULL then (.false, state) else next

def OrderedMap.find (map : OrderedMap V) (atom : BitVec 32) : Option (BitVec 6 × V) :=
  (map.find? fun entry => entry.1 = atom).map Prod.snd

def Op.spec (op : Op V) (state : Maps V) : Result × Maps V :=
  match op with
  | .newObject _ _ => (.true, { state with maps := state.maps ++ [some []] })
  | .initArrayShape _ _ => if state.array then (.false, state) else (.true, { state with array := true })
  | .freeArrayShape => (.true, { state with array := false })
  | .newArray zero _ =>
    if state.array then
      (.true, { state with maps := state.maps ++
        [some [(JS_ATOM_length, JS_PROP_WRITABLE ||| JS_PROP_LENGTH, zero)]] })
    else (.false, state)
  | .add o atom flags value _ => state.guard atom <| state.on o fun map =>
    match map.find atom with
    | none => (.true, map.insert atom flags value)
    | some _ => (.false, map)
  | .delete o atom _ => state.guard atom <| state.on o fun map =>
    match map.find atom with
    | none => (.true, map)
    | some (flags, _) => if flags &&& JS_PROP_CONFIGURABLE = 0 then (.false, map) else (.true, map.remove atom)
  | .updateFlags o atom flags _ => state.guard atom <| state.on o fun map =>
    match map.find atom with
    | none => (.false, map)
    | some _ => (.true, map.setFlags atom flags)
  | .setValue o atom value => state.guard atom <| state.on o fun map =>
    match map.find atom with
    | none => (.false, map)
    | some _ => (.true, map.setValue atom value)
  | .reserve o _ _ | .setPrototype o _ _ => state.on o fun map => (.true, map)
  | .freeObject o =>
    match state.map o with
    | none => (.false, state)
    | some _ => (.true, { state with maps := state.maps.set o none })

/-- The maps that a sequence of operations defines. An exception changes nothing. -/
def follow : List (Op V) → List Result → Maps V → Option (Maps V)
  | [], [], state => some state
  | op :: ops, result :: results, state =>
    if result = .exception then follow ops results state
    else if result = (op.spec state).1 then follow ops results (op.spec state).2
    else none
  | _, _, _ => none

end Spec

variable {flags : BitVec 6} {i : Nat} {props : Props} {outcome : Result → Heap V → Prop}

section Denotes

/-- A property table and the values denote a map: the live properties in order are its
entries, each is in the chain of its atom and in no other one, deleted properties are in
none, and `find_own_property` finds what is in the map. -/
structure Denotes (props : Props) (values : Nat → V) (map : OrderedMap V) : Prop where
  order : contents props.entries values = map
  distinct : map.atoms.Nodup
  chains : ∀ b ≤ props.propHashMask, ∃ nodes,
    Follows (nextIn props.prop) (linkIndex (props.propHash b)) nodes ∧ nodes.Nodup ∧
      ∀ i, i ∈ nodes ↔ ∃ pr, props.prop[i]? = some pr ∧ pr.atom ≠ JS_ATOM_NULL ∧ props.bucket pr.atom = b
  finds : ∀ atom ≠ JS_ATOM_NULL, ∃ found, findOwnProperty props atom = some found ∧
    (found = none → map.find atom = none) ∧
    ∀ i, found = some i → ∃ pr, props.prop[i]? = some pr ∧ pr.atom = atom ∧
      map.find atom = some (pr.flags, values i)

theorem find_eq_none {map : OrderedMap V} {atom : BitVec 32} (absent : atom ∉ map.atoms) : map.find atom = none := by
  unfold OrderedMap.find
  rw [map_eq_none_iff, find?_eq_none]
  intro entry member same
  exact absent (List.mem_map.mpr ⟨entry, member, by simpa using same⟩)

theorem find_contentsFrom {entries : List (BitVec 32 × BitVec 6)} (distinct : Distinct entries) {atom : BitVec 32}
    (present : entries[i]? = some (atom, flags)) (live : atom ≠ JS_ATOM_NULL) (values : Nat → V) (k : Nat) :
    OrderedMap.find (contentsFrom values entries k) atom = some (flags, values (k + i)) := by
  obtain ⟨front, back, rfl, rfl⟩ := split_entries present
  have before : (contentsFrom values front k).find? (fun entry => entry.1 = atom) = none :=
    find?_eq_none.mpr (by simpa using (distinct.others live values k).1)
  rw [contentsFrom_split live, OrderedMap.find, find?_append, before]
  simp

theorem Chained.entriesDistinct (chained : Chained props) : Distinct props.entries := by
  have distinct := chained.distinct
  rwa [liveAtoms_eq] at distinct

theorem Chained.denotes (chained : Chained props) (values : Nat → V) :
    Denotes props values (contents props.entries values) := by
  have atoms : (contents props.entries values).atoms = props.liveAtoms := by
    rw [liveAtoms_eq]
    exact contentsFrom_atoms values _ 0
  refine ⟨rfl, atoms ▸ chained.distinct, ?_, ?_⟩
  · intro b small
    obtain ⟨nodes, follows, members⟩ := chained.chains.chains b (Nat.lt_succ_of_le small)
    refine ⟨nodes, follows, follows.nodup, fun i => ?_⟩
    rw [members i]
    constructor
    · rintro ⟨⟨pr, present, live⟩, bucket⟩
      exact ⟨pr, present, live, by simpa [bucketIn, present, Props.bucket] using bucket⟩
    · rintro ⟨pr, present, live, bucket⟩
      exact ⟨⟨pr, present, live⟩, by simpa [bucketIn, present, Props.bucket] using bucket⟩
  · intro atom live
    obtain ⟨found, search, missing, isAtom⟩ := findOwnProperty_chained chained live
    refine ⟨found, search, ?_, ?_⟩
    · intro none'
      exact find_eq_none (atoms ▸ missing.mp none')
    · intro i some'
      obtain ⟨pr, present, same⟩ := isAtom i some'
      refine ⟨pr, present, same, ?_⟩
      have entry := getElem?_entries present
      rw [same] at entry
      have value := find_contentsFrom chained.entriesDistinct entry live values 0
      rwa [Nat.zero_add] at value

end Denotes

section Refines

variable {P : Props → Prop} {h h' : Heap V} {state : Maps V} {o : Nat} {x : Holder} {obj : Object V} {sh : Shape}
  {map : OrderedMap V} {proto : BitVec 64}

structure Refines (h : Heap V) (state : Maps V) : Prop where
  size : h.objects.length = state.maps.length
  array : h.arrayShape.isSome = state.array
  shows : ∀ o map, state.map o = some map → ∃ proto, Shows h o map proto
  absent : ∀ o, state.map o = none → h.object o = none

theorem Frame.shows (frame : Frame x h h') (other : x ≠ .object o) (shown : Shows h o map proto) :
    Shows h' o map proto := by
  obtain ⟨obj, sh, site, whole, isProto⟩ := shown
  have face := frame.face (.object o) obj.shape other.symm site.held
  rw [site.shape, map_some] at face
  obtain ⟨sh', found, same⟩ := map_eq_some_iff.mp face
  have props : sh'.toProps = sh.toProps := congrArg Prod.fst same
  have proto' : sh'.proto = sh.proto := congrArg Prod.snd same
  exact ⟨obj, sh', ⟨(frame.object o other).trans site.object, found⟩, by rwa [props],
    proto'.trans isProto⟩

theorem Refines.map_at (refines : Refines h state) (site : At h o obj sh) : state.map o = some site.map := by
  cases is : state.map o with
  | none =>
    have missing := refines.absent o is
    simp [site.object] at missing
  | some map =>
    obtain ⟨proto, obj', sh', site', whole, -⟩ := refines.shows o map is
    have sameObj : obj' = obj := some.inj (site'.object.symm.trans site.object)
    subst sameObj
    have sameSh : sh' = sh := some.inj (site'.shape.symm.trans site.shape)
    subst sameSh
    rw [← whole]
    rfl

theorem Refines.map_none (refines : Refines h state) (missing : h.object o = none) : state.map o = none := by
  cases is : state.map o with
  | none => rfl
  | some map =>
    obtain ⟨proto, obj, sh, site, -⟩ := refines.shows o map is
    simp [site.object] at missing

theorem Refines.idle (refines : Refines h state) {atom : BitVec 32} {f : OrderedMap V → Result × OrderedMap V}
    (none' : atom = JS_ATOM_NULL ∨ h.object o = none) :
    .false = (state.guard atom (state.on o f)).1 ∧ Refines h (state.guard atom (state.on o f)).2 := by
  unfold Maps.guard
  split
  · exact ⟨rfl, refines⟩
  · next live => simpa [Maps.on, refines.map_none (none'.resolve_left live)] using refines

theorem map_set_of_ne {o' : Nat} (other : o' ≠ o) (new : Option (OrderedMap V)) :
    Maps.map { state with maps := state.maps.set o new } o' = state.map o' := by
  simp [Maps.map, other.symm]

theorem map_lt (is : state.map o = some map) : o < state.maps.length := by
  by_contra beyond
  simp [Maps.map, getElem?_eq_none (show state.maps.length ≤ o by omega)] at is

def Slot (h : Heap V) (o : Nat) : Option (OrderedMap V) → Prop
  | none => h.object o = none
  | some map => ∃ proto, Shows h o map proto

theorem refines_iff : Refines h state ↔
    h.objects.length = state.maps.length ∧ h.arrayShape.isSome = state.array ∧ ∀ o, Slot h o (state.map o) := by
  constructor
  · intro refines
    refine ⟨refines.size, refines.array, fun o => ?_⟩
    cases is : state.map o with
    | none => exact refines.absent o is
    | some map => exact refines.shows o map is
  · rintro ⟨size, array, slots⟩
    refine ⟨size, array, fun o map is => ?_, fun o is => ?_⟩
    · simpa [is, Slot] using slots o
    · simpa [is, Slot] using slots o

theorem Slot.frame {slot : Option (OrderedMap V)} (is : Slot h o slot) (frame : Frame x h h') (other : x ≠ .object o) :
    Slot h' o slot := by
  cases slot with
  | none => exact (frame.object o other).trans is
  | some map => exact is.imp fun _ => frame.shows other

/-- What an operation on one object does to the maps. -/
theorem Refines.moved (refines : Refines h state) (frame : Frame (.object o) h h') {maps : List (Option (OrderedMap V))}
    (size : h'.objects.length = maps.length) (others : ∀ o' ≠ o, Maps.map { state with maps := maps } o' = state.map o')
    (here : Slot h' o (Maps.map { state with maps := maps } o)) : Refines h' { state with maps := maps } := by
  obtain ⟨-, array, slots⟩ := refines_iff.mp refines
  refine refines_iff.mpr ⟨size, by rwa [frame.array (by simp)], fun o' => ?_⟩
  rcases eq_or_ne o' o with rfl | other
  · exact here
  · rw [others o' other]
    exact (slots o').frame frame (by simpa using other.symm)

section OneObject

variable (refines : Refines h state) (frame : Frame (.object o) h h') (site : At h o obj sh)

include refines frame site

theorem Refines.set (shown : Shows h' o map proto) : Refines h' { state with maps := state.maps.set o (some map) } := by
  have inside := map_lt (refines.map_at site)
  have size := frame.size (by rw [refines.size]; simp; omega)
  refine refines.moved frame (by simp [size, refines.size]) (fun o' other => map_set_of_ne other _) ?_
  simpa [Maps.map, inside] using ⟨proto, shown⟩

theorem Refines.same (shown : Shows h' o site.map proto) : Refines h' state := by
  have moved := refines.set frame site shown
  have is := refines.map_at site
  have slot : state.maps[o]? = some (some site.map) := by
    unfold Maps.map at is
    cases found : state.maps[o]? with
    | none => simp [found] at is
    | some value =>
      rw [found] at is
      exact congrArg some is
  obtain ⟨inside, value⟩ := List.getElem?_eq_some_iff.mp slot
  rwa [← value, set_getElem_self] at moved

def Agrees (op : Op V) (state : Maps V) (r : Result) (h' : Heap V) : Prop :=
  r = .exception ∧ Refines h' state ∨ r = (op.spec state).1 ∧ Refines h' (op.spec state).2

theorem Refines.on {f : OrderedMap V → Result × OrderedMap V} {r : Result}
    (effect : r = .exception ∧ Shows h' o site.map proto ∨ r = (f site.map).1 ∧ Shows h' o (f site.map).2 proto) :
    r = .exception ∧ Refines h' state ∨ r = (state.on o f).1 ∧ Refines h' (state.on o f).2 := by
  rcases effect with ⟨failed, shown⟩ | ⟨done, shown⟩
  · exact .inl ⟨failed, refines.same frame site shown⟩
  · right
    rw [Maps.on, refines.map_at site]
    exact ⟨done, refines.set frame site shown⟩

theorem Refines.guard_on {atom : BitVec 32} (live : atom ≠ JS_ATOM_NULL) {f : OrderedMap V → Result × OrderedMap V}
    {r : Result}
    (effect : r = .exception ∧ Shows h' o site.map proto ∨ r = (f site.map).1 ∧ Shows h' o (f site.map).2 proto) :
    r = .exception ∧ Refines h' state ∨ r = (state.guard atom (state.on o f)).1 ∧
      Refines h' (state.guard atom (state.on o f)).2 := by
  rw [Maps.guard, if_neg live]
  exact refines.on frame site effect

end OneObject

theorem Refines.push (refines : Refines h state) (frame : Frame (.object h.objects.length) h h')
    (longer : h'.objects.length = h.objects.length + 1) (shown : Shows h' h.objects.length map proto) :
    Refines h' { state with maps := state.maps ++ [some map] } := by
  refine refines.moved frame (by simp [longer, refines.size]) (fun o' other => ?_) ?_
  · rw [refines.size] at other
    unfold Maps.map
    rcases Nat.lt_or_gt_of_ne other with inside | beyond
    · simp [getElem?_append_left inside]
    · simp [getElem?_append_right (Nat.le_of_lt beyond), getElem?_eq_none (Nat.le_of_lt beyond),
        Nat.sub_ne_zero_of_lt beyond]
  have last : Maps.map { state with maps := state.maps ++ [some map] } h.objects.length = some map := by
    simp [Maps.map, refines.size]
  rw [last]
  exact ⟨proto, shown⟩

end Refines

section Step

variable {P : Props → Prop} {h h' : Heap V} {state : Maps V} {o : Nat} {obj : Object V} {sh : Shape} {r : Result}

def Op.target (op : Op V) (h : Heap V) : Holder :=
  match op with
  | .newObject _ _ | .newArray _ _ => .object h.objects.length
  | .initArrayShape _ _ | .freeArrayShape => .context
  | .add o _ _ _ _ | .delete o _ _ | .updateFlags o _ _ _ | .setValue o _ _ | .reserve o _ _
  | .setPrototype o _ _ | .freeObject o => .object o

/-- The number of properties after an addition, and the size asked for. -/
def Op.Fits (fits sizes : Nat → Prop) (op : Op V) (h : Heap V) : Prop :=
  match op with
  | .add o _ _ _ _ => ∀ obj sh, At h o obj sh → fits (sh.prop.length + 1)
  | .reserve _ count _ => sizes count
  | _ => True

structure Inv (P : Props → Prop) (h : Heap V) : Prop where
  good : Good P h
  array : ArrayOk h

theorem Inv.frame {x : Holder} (inv : Inv P h) (good : Good P h') (frame : Frame x h h') (other : x ≠ .context) :
    Inv P h' := ⟨good, inv.array.frame inv.good frame other⟩

variable {f : Heap V → Option (Result × Heap V)}

theorem on_spec (good : Good P h) (absent : h.object o = none → outcome .false h)
    (present : ∀ obj sh, At h o obj sh → ∃ r h', f h = some (r, h') ∧ outcome r h') :
    ∃ r h', h.on o f = some (r, h') ∧ outcome r h' := by
  unfold Heap.on
  cases there : h.object o with
  | none => exact ⟨.false, h, rfl, absent there⟩
  | some obj =>
    obtain ⟨sh, site⟩ := good.at_object there
    exact present obj sh site

theorem guard_on_spec (good : Good P h) {atom : BitVec 32}
    (idle : atom = JS_ATOM_NULL ∨ h.object o = none → outcome .false h)
    (present : atom ≠ JS_ATOM_NULL → ∀ obj sh, At h o obj sh → ∃ r h', f h = some (r, h') ∧ outcome r h') :
    ∃ r h', (if atom = JS_ATOM_NULL then some (.false, h) else h.on o f) = some (r, h') ∧ outcome r h' := by
  by_cases isNull : atom = JS_ATOM_NULL
  · rw [if_pos isNull]
    exact ⟨.false, h, rfl, idle (.inl isNull)⟩
  · rw [if_neg isNull]
    exact on_spec good (fun missing => idle (.inr missing)) (present isNull)

theorem setFlags_of_eq {props' : Props} (changed : setFlags i flags props = some props') :
    ∃ pr : ShapeProperty, props'.entries = props.entries.set i (pr.atom, flags) ∧
      props'.propSize = props.propSize ∧ props'.propHashMask = props.propHashMask ∧ (Linked props → Linked props') ∧
      (Chained props → Chained props') := by
  cases present : props.prop[i]? with
  | none => simp [setFlags, present] at changed
  | some pr =>
    obtain ⟨props2, changed2, size, entries, linked, chained⟩ := setFlags_spec present
    obtain rfl : props' = props2 := some.inj (changed.symm.trans changed2)
    refine ⟨pr, entries, size, ?_, linked, chained⟩
    simp only [setFlags, present, bind_eq_bind, bind_some, some.injEq] at changed
    rw [← changed]

theorem closed_chained : Closed Chained (· ≤ maxProps) fun _ => True where
  one := by decide
  sized := fun _ => trivial
  linked := Chained.linked
  empty := fun _ => chained_emptyProps ⟨2, rfl⟩
  resized := fun chained enough _ _ => resizedProps_chained chained enough
  appended := by
    intro props old atom flags oldChained absent chained entries live room small
    obtain ⟨found, search, missing, -⟩ := findOwnProperty_chained oldChained live
    rw [absent] at search
    cases search
    apply appended_chained chained room live small
    rw [liveAtoms_eq, entries, ← liveAtoms_eq]
    exact missing.mp rfl
  removed := by
    intro props atom i lpr pr chained live loop present
    obtain ⟨before, after, follows, rfl, ⟨found, isThere, isAtom⟩, front⟩ :=
      deleteLoop_found chained.linked loop
    rw [present] at isThere
    cases isThere
    subst isAtom
    exact removed_chained chained follows present live fun l is => (front l is).1
  flagged := by
    intro props props' i flags chained changed
    obtain ⟨pr, -, -, -, -, keeps⟩ := setFlags_of_eq changed
    exact keeps chained
  compacted := fun chained _ => compacted_chained chained

theorem Refines.kept (refines : Refines h state) (frame : Frame (.object h.objects.length) h h')
    (objects : h'.objects = h.objects) : Refines h' state := by
  refine refines.moved frame ((congrArg length objects).trans refines.size) (fun _ _ => rfl) ?_
  rw [refines.map_none (by simp [Heap.object])]
  simp [Slot, Heap.object, objects]

theorem Refines.context (refines : Refines h state) (frame : Frame .context h h') (objects : h'.objects = h.objects) :
    Refines h' { state with array := h'.arrayShape.isSome } := by
  obtain ⟨size, -, slots⟩ := refines_iff.mp refines
  exact refines_iff.mpr ⟨(congrArg length objects).trans size, rfl, fun o => (slots o).frame frame (by simp)⟩

section Effects

variable {atom : BitVec 32} {value : V} {found : Option Nat} {mem : Memory}

theorem find_map (chained : Chained sh.toProps) (site : At h o obj sh) (live : atom ≠ JS_ATOM_NULL)
    (search : findOwnProperty sh.toProps atom = some found) :
    found = none ∧ site.map.find atom = none ∨ ∃ i pr, found = some i ∧ sh.prop[i]? = some pr ∧
      sh.entries[i]? = some (atom, pr.flags) ∧ site.map.find atom = some (pr.flags, obj.prop i) := by
  obtain ⟨result, search', missing, isThere⟩ := (chained.denotes obj.prop).finds atom live
  obtain rfl : found = result := some.inj (search.symm.trans search')
  cases found with
  | none => exact .inl ⟨rfl, missing rfl⟩
  | some i =>
    obtain ⟨pr, present, same, some'⟩ := isThere i rfl
    exact .inr ⟨i, pr, rfl, present, same ▸ getElem?_entries present, some'⟩

section Search

variable (chained : Chained sh.toProps) (site : At h o obj sh) (live : atom ≠ JS_ATOM_NULL) (refines : Refines h state)
  (frame : Frame (.object o) h h') (search : findOwnProperty sh.toProps atom = some found)

include chained site live refines frame search

theorem agrees_add (present : found ≠ none → r = .false ∧ h' = h)
    (absent : found = none → r = .exception ∧ Shows h' o site.map sh.proto ∨ r = .true ∧
      Shows h' o (site.map.insert atom flags value) sh.proto) :
    Agrees (.add o atom flags value mem) state r h' := by
  refine @Refines.guard_on _ h h' state o obj sh sh.proto refines frame site atom live _ r ?_
  obtain ⟨rfl, none'⟩ | ⟨i, pr, rfl, -, -, some'⟩ := find_map chained site live search
  · rw [none']
    exact absent rfl
  · rw [some']
    obtain ⟨rfl, rfl⟩ := present (by simp)
    exact .inr ⟨rfl, site.shows⟩

theorem agrees_delete (absent : found = none → r = .true ∧ h' = h)
    (present : ∀ i, found = some i → ∃ pr, sh.prop[i]? = some pr ∧ pr.atom = atom ∧
      (pr.flags &&& JS_PROP_CONFIGURABLE = 0 → r = .false ∧ h' = h) ∧ (pr.flags &&& JS_PROP_CONFIGURABLE ≠ 0 →
      r = .exception ∧ Shows h' o site.map sh.proto ∨ r = .true ∧
      Shows h' o (contents (sh.entries.set i (JS_ATOM_NULL, 0)) obj.prop) sh.proto)) :
    Agrees (.delete o atom mem) state r h' := by
  refine @Refines.guard_on _ h h' state o obj sh sh.proto refines frame site atom live _ r ?_
  obtain ⟨rfl, none'⟩ | ⟨i, pr, rfl, there, entry, some'⟩ := find_map chained site live search
  · rw [none']
    obtain ⟨rfl, rfl⟩ := absent rfl
    exact .inr ⟨rfl, site.shows⟩
  · obtain ⟨pr', there', -, fixed, gone⟩ := present i rfl
    obtain rfl : pr = pr' := some.inj (there.symm.trans there')
    rw [some']
    by_cases isFixed : pr.flags &&& JS_PROP_CONFIGURABLE = 0
    · obtain ⟨rfl, rfl⟩ := fixed isFixed
      simp only [if_pos isFixed]
      exact .inr ⟨trivial, site.shows⟩
    · simp only [if_neg isFixed]
      have removes : contents (sh.entries.set i (JS_ATOM_NULL, 0)) obj.prop = site.map.remove atom :=
        contentsFrom_remove chained.entriesDistinct entry live obj.prop 0
      rw [removes] at gone
      exact gone isFixed

theorem agrees_updateFlags (absent : found = none → r = .false ∧ h' = h)
    (present : ∀ i, found = some i → r = .exception ∧ Shows h' o site.map sh.proto ∨ r = .true ∧
      Shows h' o (contents (sh.entries.set i (atom, flags)) obj.prop) sh.proto) :
    Agrees (.updateFlags o atom flags mem) state r h' := by
  refine @Refines.guard_on _ h h' state o obj sh sh.proto refines frame site atom live _ r ?_
  obtain ⟨rfl, none'⟩ | ⟨i, pr, rfl, -, entry, some'⟩ := find_map chained site live search
  · rw [none']
    obtain ⟨rfl, rfl⟩ := absent rfl
    exact .inr ⟨rfl, site.shows⟩
  · have changes : contents (sh.entries.set i (atom, flags)) obj.prop = site.map.setFlags atom flags :=
      contentsFrom_setFlags chained.entriesDistinct entry live obj.prop 0 flags
    have effect := present i rfl
    rw [changes] at effect
    rwa [some']

theorem agrees_setValue (absent : found = none → r = .false ∧ h' = h) (present : ∀ i, found = some i → r = .true ∧
      Shows h' o (contents sh.entries (Function.update obj.prop i value)) sh.proto) :
    Agrees (.setValue o atom value) state r h' := by
  refine @Refines.guard_on _ h h' state o obj sh sh.proto refines frame site atom live _ r ?_
  obtain ⟨rfl, none'⟩ | ⟨i, pr, rfl, -, entry, some'⟩ := find_map chained site live search
  · rw [none']
    obtain ⟨rfl, rfl⟩ := absent rfl
    exact .inr ⟨rfl, site.shows⟩
  · have changes := contentsFrom_setValue chained.entriesDistinct entry live obj.prop 0 value
    rw [Nat.zero_add] at changes
    have effect := present i rfl
    rw [show contents sh.entries (Function.update obj.prop i value) = site.map.setValue atom value from changes]
      at effect
    rw [some']
    exact .inr effect

end Search

theorem Refines.free (refines : Refines h state) (frame : Frame (.object o) h h') (site : At h o obj sh)
    (objects : h'.objects = h.objects.set o none) : Agrees (.freeObject o) state .true h' := by
  right
  have is := refines.map_at site
  simp only [Op.spec, is]
  refine ⟨trivial, refines.moved frame (by simp [objects, refines.size]) (fun o' other => map_set_of_ne other _) ?_⟩
  have lt := (object_lt site.object).1
  simp [Maps.map, map_lt is, Slot, Heap.object, objects, lt]

end Effects

variable [Inhabited V]

/-- What a step does to the objects, and to their maps where the chains are complete. -/
theorem step_spec {fits sizes : Nat → Prop} (closed : Closed P fits sizes) (inv : Inv P h) (state : Maps V) {op : Op V}
    (fitting : op.Fits fits sizes h) : ∃ r h', step op h = some (r, h') ∧ Inv P h' ∧ Frame (op.target h) h h' ∧
      ((∀ {props}, P props → Chained props) → Refines h state → Agrees op state r h') := by
  have good := inv.good
  cases op with
  | newObject proto mem =>
    obtain ⟨r, h', called, good', frame, outcome⟩ := jsNewObjectProto_spec closed good proto mem
    refine ⟨r, h', called, inv.frame good' frame (by simp), frame, fun _ refines => ?_⟩
    rcases outcome with ⟨failed, objects, -⟩ | ⟨done, longer, obj, sh, site, entries, isProto⟩
    · exact .inl ⟨failed, refines.kept frame objects⟩
    · have shown : Shows h' h.objects.length [] proto := ⟨obj, sh, site, by rw [entries]; rfl, isProto⟩
      exact .inr ⟨done, refines.push frame longer shown⟩
  | initArrayShape proto mem =>
    unfold step
    cases held : h.arrayShape with
    | some p =>
      refine ⟨.false, h, rfl, inv, .refl _ _, fun _ refines => .inr ?_⟩
      have array := refines.array
      rw [held] at array
      simp only [Op.spec, ← array, isSome_some, if_true]
      exact ⟨trivial, refines⟩
    | none =>
      obtain ⟨r, h', called, good', array', frame, objects, outcome⟩ := initArrayShape_spec closed good held proto mem
      refine ⟨r, h', called, ⟨good', array'⟩, frame, fun _ refines => ?_⟩
      have moved := refines.context frame objects
      have array := refines.array
      rw [held] at array
      rcases outcome with ⟨failed, none'⟩ | ⟨done, some'⟩
      · rw [none', array] at moved
        exact .inl ⟨failed, moved⟩
      · rw [isSome_iff_ne_none.mpr some'] at moved
        right
        simp only [Op.spec, ← array, isSome_none, Bool.false_eq_true, if_false]
        exact ⟨done, moved⟩
  | freeArrayShape =>
    obtain ⟨h', called, good', frame, none', objects⟩ := freeArrayShape_spec good
    refine ⟨.true, h', by simp [step, called], ⟨good', ?_⟩, frame, fun _ refines => ?_⟩
    · intro p sh held
      simp [none'] at held
    · have moved := refines.context frame objects
      rw [none'] at moved
      exact .inr ⟨rfl, moved⟩
  | newArray zero mem =>
    obtain ⟨r, h', called, good', frame, missing, present⟩ := jsNewArray_spec good inv.array zero mem
    refine ⟨r, h', called, inv.frame good' frame (by simp), frame, fun _ refines => ?_⟩
    have array := refines.array
    cases held : h.arrayShape with
    | none =>
      obtain ⟨rfl, rfl⟩ := missing held
      rw [held] at array
      right
      simp only [Op.spec, ← array, isSome_none, Bool.false_eq_true, if_false]
      exact ⟨trivial, refines⟩
    | some p =>
      rw [held] at array
      rcases present (by simp [held]) with ⟨failed, objects⟩ | ⟨done, longer, proto, shown⟩
      · exact .inl ⟨failed, refines.kept frame objects⟩
      · have pushed := refines.push frame longer shown
        rw [← array, isSome_some] at pushed
        right
        simp only [Op.spec, ← array, isSome_some, if_true]
        exact ⟨done, pushed⟩
  | add o atom flags value mem =>
    refine guard_on_spec good (fun none' => ⟨inv, .refl _ _, fun _ refines => .inr (refines.idle none')⟩)
      fun live obj sh site => ?_
    obtain ⟨r, h', found, called, good', frame, search, present, absent⟩ :=
      defineOwn_spec closed good site live (fitting obj sh site) value mem
    refine ⟨r, h', called, inv.frame good' frame (by simp), frame, fun chained refines =>
      agrees_add (chained (good.props _ _ site.shape)) site live refines frame search present fun none' => ?_⟩
    rcases absent none' with ⟨failed, shown, -⟩ | ⟨done, shown, -⟩
    · exact .inl ⟨failed, shown⟩
    · exact .inr ⟨done, shown⟩
  | delete o atom mem =>
    refine guard_on_spec good (fun none' => ⟨inv, .refl _ _, fun _ refines => .inr (refines.idle none')⟩)
      fun live obj sh site => ?_
    obtain ⟨r, h', found, called, good', frame, search, absent, present⟩ :=
      deleteProperty_spec closed good site live mem
    exact ⟨r, h', called, inv.frame good' frame (by simp), frame, fun chained refines =>
      agrees_delete (chained (good.props _ _ site.shape)) site live refines frame search absent present⟩
  | updateFlags o atom flags mem =>
    refine guard_on_spec good (fun none' => ⟨inv, .refl _ _, fun _ refines => .inr (refines.idle none')⟩)
      fun live obj sh site => ?_
    obtain ⟨r, h', found, called, good', frame, search, absent, present⟩ := updateOwn_spec closed good site mem
    exact ⟨r, h', called, inv.frame good' frame (by simp), frame, fun chained refines =>
      agrees_updateFlags (chained (good.props _ _ site.shape)) site live refines frame search absent present⟩
  | setValue o atom value =>
    refine guard_on_spec good (fun none' => ⟨inv, .refl _ _, fun _ refines => .inr (refines.idle none')⟩)
      fun live obj sh site => ?_
    obtain ⟨r, h', found, called, good', frame, search, absent, present⟩ := setOwn_spec closed good site value
    exact ⟨r, h', called, inv.frame good' frame (by simp), frame, fun chained refines =>
      agrees_setValue (chained (good.props _ _ site.shape)) site live refines frame search absent present⟩
  | reserve o count mem =>
    refine on_spec good (fun missing => ⟨inv, .refl _ _, fun _ refines => .inr ?_⟩) fun obj sh site => ?_
    · simp [Op.spec, Maps.on, refines.map_none missing, refines]
    · obtain ⟨r, h', called, good', frame, results, shown⟩ := reserve_spec closed good site fitting mem
      refine ⟨r, h', called, inv.frame good' frame (by simp), frame, fun _ refines => ?_⟩
      rcases results with failed | done
      · exact refines.on frame site (.inl ⟨failed, shown⟩)
      · exact refines.on frame site (.inr ⟨done, shown⟩)
  | setPrototype o proto mem =>
    refine on_spec good (fun missing => ⟨inv, .refl _ _, fun _ refines => .inr ?_⟩) fun obj sh site => ?_
    · simp [Op.spec, Maps.on, refines.map_none missing, refines]
    · obtain ⟨r, h', called, good', frame, effect⟩ := setPrototype_spec good site proto mem
      refine ⟨r, h', called, inv.frame good' frame (by simp), frame, fun _ refines => ?_⟩
      rcases effect with ⟨failed, shown⟩ | ⟨done, shown⟩
      · exact refines.on frame site (.inl ⟨failed, shown⟩)
      · exact refines.on frame site (.inr ⟨done, shown⟩)
  | freeObject o =>
    change ∃ r h', (h.on o fun h => (freeObject o h).map (Prod.mk .true)) = some (r, h') ∧ _
    refine on_spec good (fun missing => ⟨inv, .refl _ _, fun _ refines => .inr ?_⟩) fun obj sh site => ?_
    · simp [Op.spec, refines.map_none missing, refines]
    · obtain ⟨h', called, good', frame, objects⟩ := freeObject_spec good site.object
      exact ⟨.true, h', by simp [called], inv.frame good' frame (by simp), frame,
        fun _ refines => refines.free frame site objects⟩

end Step

end Shapes
