import Partikle.Shape.Add
import Partikle.Shape.Contents

/-!
The operations on one object: each keeps the invariant, changes nothing that another
object sees, and has the expected effect on the properties of its own object.
-/

namespace Shapes

open HashChain Option

variable {V : Type} {P : Props → Prop} {fits sizes : Nat → Prop} {h h' : Heap V} {p q : Ptr}
  {sh sh' : Shape} {o : Nat} {obj obj' : Object V} {atom : BitVec 32} {flags : BitVec 6}

def Shows (h : Heap V) (o : Nat) (map : OrderedMap V) (proto : BitVec 64) : Prop :=
  ∃ obj sh, At h o obj sh ∧ contents sh.entries obj.prop = map ∧ sh.proto = proto

def At.map (_ : At h o obj sh) : OrderedMap V := contents sh.entries obj.prop

theorem At.shows (site : At h o obj sh) : Shows h o site.map sh.proto := ⟨obj, sh, site, rfl, rfl⟩

theorem Kept.shows (kept : Kept h' o obj sh obj' sh') (site : At h o obj sh) : Shows h' o site.map sh.proto :=
  ⟨obj', sh', kept.site, by rw [kept.prop, kept.toProps]; rfl, kept.proto⟩

variable {pr : ShapeProperty} {props : Props} {i : Nat}

theorem getElem?_entries (present : props.prop[i]? = some pr) : props.entries[i]? = some (pr.atom, pr.flags) := by
  simp [Props.entries, present]

section Define

theorem defineOwn_spec (closed : Closed P fits sizes) (ok : Good P h) (site : At h o obj sh)
    (live : atom ≠ JS_ATOM_NULL) (small : fits (sh.prop.length + 1)) (value : V) (mem : Memory) :
    ∃ r h' found, defineOwn o atom flags value mem h = some (r, h') ∧ Good P h' ∧ Frame (.object o) h h' ∧
      findOwnProperty sh.toProps atom = some found ∧ (found ≠ none → r = .false ∧ h' = h) ∧ (found = none →
      r = .exception ∧ Shows h' o site.map sh.proto ∧ ¬Ample mem h ∨ r = .true ∧
      Shows h' o (site.map.insert atom flags value) sh.proto ∧ ∃ obj' sh', At h' o obj' sh' ∧
      Grown h sh.toProps atom flags sh'.toProps) := by
  have linked := closed.linked (ok.props _ _ site.shape)
  obtain ⟨found, search, -⟩ := findOwnProperty_total linked atom
  simp only [defineOwn, site.object, site.shape, search, bind_eq_bind, bind_some]
  cases found with
  | some i => exact ⟨.false, h, some i, rfl, ok, .refl _ _, rfl, fun _ => ⟨rfl, rfl⟩, fun no => by cases no⟩
  | none =>
    obtain ⟨r, h1, obj1, sh1, added, ok1, frame1, index, tried⟩ :=
      @addProperty_spec V P fits sizes h sh o obj atom flags closed ok site search live small mem
    simp only [added, bind_some]
    cases r with
    | none =>
      obtain ⟨props, excuse⟩ := tried.failure (by simp)
      refine ⟨.exception, h1, none, rfl, ok1, frame1, rfl, fun no => absurd rfl no,
        fun _ => .inl ⟨rfl, ⟨obj1, sh1, tried.site, ?_, tried.proto⟩, excuse⟩⟩
      rw [tried.prop, props]
      rfl
    | some i =>
      obtain rfl := index i rfl
      have grown := tried.success (by simp)
      have entries := grown.entries linked
      have length : sh1.prop.length = sh.prop.length + 1 := by
        rw [← entries_length, entries, List.length_append, entries_length]
        rfl
      have inside : sh.prop.length < obj1.propAlloc := by
        have room := (closed.linked (ok1.props _ _ tried.site.shape)).room
        have size := ok1.propSize_le tried.site
        omega
      obtain ⟨h2, written, ok2, frame2, site2⟩ := writeProp_spec value ok1 tried.site inside
      simp only [written, bind_some]
      refine ⟨.true, h2, none, rfl, ok2, frame1.trans frame2, rfl, fun no => absurd rfl no, fun _ => .inr
        ⟨rfl, ⟨_, sh1, site2, ?_, tried.proto⟩, _, sh1, site2, grown⟩⟩
      rw [entries, tried.prop, ← entries_length]
      exact contents_insert flags value live _ _

end Define

section Delete

theorem deleteLoop_eq_findLoop (prop : List ShapeProperty) (atom : BitVec 32) (fuel : Nat) (lpr : Option Nat)
    (h : Nat) :
    (deleteLoop prop atom fuel lpr h).map (Option.map Prod.fst) = findLoop prop atom fuel h := by
  induction fuel generalizing lpr h with
  | zero => rfl
  | succ fuel ih =>
    unfold deleteLoop findLoop
    by_cases zero : h = 0
    · simp [zero]
    · rw [if_neg zero, if_neg zero]
      cases present : prop[h - 1]? with
      | none => rfl
      | some pr =>
        by_cases same : pr.atom = atom
        · simp [same]
        · simpa [same] using ih (some (h - 1)) pr.hashNext.toNat

theorem compactSize_le (linked : Linked props) (many : props.deletedPropCount ≥ 8) :
    compactSize props ≤ props.propSize := by
  have room := linked.room
  have live := length_filter_isLive linked
  unfold compactSize JS_PROP_INITIAL_SIZE
  omega

theorem deleteProperty_spec [Inhabited V] (closed : Closed P fits sizes) (ok : Good P h) (site : At h o obj sh)
    (live : atom ≠ JS_ATOM_NULL) (mem : Memory) :
    ∃ r h' found, deleteProperty o atom mem h = some (r, h') ∧ Good P h' ∧ Frame (.object o) h h' ∧
      findOwnProperty sh.toProps atom = some found ∧ (found = none → r = .true ∧ h' = h) ∧ ∀ i, found = some i → ∃ pr,
      sh.prop[i]? = some pr ∧ pr.atom = atom ∧ (pr.flags &&& JS_PROP_CONFIGURABLE = 0 → r = .false ∧ h' = h) ∧
      (pr.flags &&& JS_PROP_CONFIGURABLE ≠ 0 → r = .exception ∧ Shows h' o site.map sh.proto ∨ r = .true ∧
      Shows h' o (contents (sh.entries.set i (JS_ATOM_NULL, 0)) obj.prop) sh.proto) := by
  have holds := ok.props _ _ site.shape
  have linked := closed.linked holds
  obtain ⟨found, search, -⟩ := findOwnProperty_total linked atom
  have agree := deleteLoop_eq_findLoop sh.prop atom (sh.prop.length + 1) none (sh.propHash (sh.bucket atom))
  rw [show findLoop sh.prop atom (sh.prop.length + 1) (sh.propHash (sh.bucket atom)) = some found from search]
    at agree
  obtain ⟨place, loop, agree⟩ := map_eq_some_iff.mp agree
  simp only [deleteProperty, site.object, site.shape, loop, bind_eq_bind, bind_some]
  cases place with
  | none =>
    subst agree
    exact ⟨.true, h, none, rfl, ok, .refl _ _, search, fun _ => ⟨rfl, rfl⟩, fun _ no => by cases no⟩
  | some place =>
    obtain ⟨i, lpr⟩ := place
    subst agree
    obtain ⟨-, -, -, -, ⟨pr, present, isAtom⟩, front⟩ := deleteLoop_found linked loop
    simp only [present, bind_some]
    by_cases fixed : pr.flags &&& JS_PROP_CONFIGURABLE = 0
    · rw [if_pos fixed]
      refine ⟨.false, h, some i, rfl, ok, .refl _ _, search, (fun no => by cases no), ?_⟩
      rintro _ ⟨⟩
      exact ⟨pr, present, isAtom, fun _ => ⟨rfl, rfl⟩, fun no => absurd fixed no⟩
    · rw [if_neg fixed]
      obtain ⟨done, h1, obj1, sh1, prepared, ok1, frame1, kept, unhashed⟩ :=
        jsShapePrepareUpdate_spec ok site mem
      simp only [prepared, bind_some]
      cases done with
      | false =>
        refine ⟨.exception, h1, some i, rfl, ok1, frame1, search, (fun no => by cases no), ?_⟩
        rintro _ ⟨⟩
        exact ⟨pr, present, isAtom, fun yes => absurd yes fixed, fun _ => .inl ⟨rfl, kept.shows site⟩⟩
      | true =>
        have props1 := kept.toProps
        let props2 := removed i lpr (sh.bucket atom) pr sh.toProps
        have changed : removeProp i lpr (sh.bucket atom) sh1.toProps = some props2 := by
          rw [props1]
          cases lpr with
          | none => simp [props2, removeProp, removed, present, deadProp]
          | some l =>
            obtain ⟨pl, presentL⟩ := (front l rfl).2
            simp [props2, removeProp, removed, present, presentL, deadProp, setNext]
        obtain ⟨linked2, entries2⟩ := removed_linked linked present
          (isAtom ▸ live) fun l is => (front l is).1
        have holds2 : P props2 := closed.removed holds live loop present
        have size2 : props2.propSize = sh1.propSize := by rw [props1]; exact removed_size
        obtain ⟨h2, change, ok2, frame2, site2⟩ :=
          changeProps_spec ok1 kept.site (unhashed rfl) changed holds2 size2
        have inside : i < obj1.propAlloc := by
          have below := (List.getElem?_eq_some_iff.mp present).1
          have room := linked.room
          have size := ok1.propSize_le kept.site
          rw [props1] at size
          omega
        obtain ⟨h3, written, ok3, frame3, site3⟩ := writeProp_spec default ok2 site2 inside
        have frame := frame1.trans (frame2.trans frame3)
        have dead : contents props2.entries (Function.update obj1.prop i default) =
            contents (sh.entries.set i (JS_ATOM_NULL, 0)) obj.prop := by
          have below := (List.getElem?_eq_some_iff.mp (getElem?_entries present)).1
          have gone : (sh.entries.set i (JS_ATOM_NULL, 0))[i]? = some (JS_ATOM_NULL, 0) := by simp [below]
          have unread := contentsFrom_dead gone obj.prop 0 default
          rw [Nat.zero_add] at unread
          rwa [show props2.entries = _ from entries2, kept.prop]
        simp only [change, written, bind_some, site3.object, site3.shape]
        by_cases many : props2.deletedPropCount ≥ 8 ∧ props2.deletedPropCount ≥ props2.prop.length / 2
        · rw [if_pos many]
          obtain ⟨h4, obj4, sh4, compacting, ok4, frame4, site4, proto4, effect⟩ :=
            compactProperties_spec ok3 site3 (unhashed rfl) linked2 (compactSize_le linked2 many.1)
              (closed.compacted holds2 (compactSize_le linked2 many.1)) mem
          simp only [compacting, bind_some]
          refine ⟨.true, h4, some i, rfl, ok4, frame.trans frame4, search, (fun no => by cases no), ?_⟩
          rintro _ ⟨⟩
          refine ⟨pr, present, isAtom, fun yes => absurd yes fixed, fun _ => .inr ⟨rfl, obj4, sh4, site4, ?_,
            proto4.trans kept.proto⟩⟩
          rcases effect with ⟨rfl, rfl⟩ | ⟨compact, values⟩
          · exact dead
          · rwa [compact, values, contents_compact]
        · rw [if_neg many]
          refine ⟨.true, h3, some i, rfl, ok3, frame, search, (fun no => by cases no), ?_⟩
          rintro _ ⟨⟩
          exact ⟨pr, present, isAtom, fun yes => absurd yes fixed, fun _ => .inr ⟨rfl, _, _, site3, dead,
            kept.proto⟩⟩

end Delete

section Update

section Site

variable (closed : Closed P fits sizes) (ok : Good P h) (site : At h o obj sh)

include closed ok site

theorem jsUpdatePropertyFlags_spec (present : sh.prop[i]? = some pr) (mem : Memory) :
    ∃ r h', jsUpdatePropertyFlags o i flags mem h = some (r, h') ∧ Good P h' ∧ Frame (.object o) h h' ∧
      (r = .exception ∧ Shows h' o site.map sh.proto ∨ r = .true ∧
      Shows h' o (contents (sh.entries.set i (pr.atom, flags)) obj.prop) sh.proto) := by
  simp only [jsUpdatePropertyFlags, site.object, site.shape, present, bind_eq_bind, bind_some]
  by_cases same : flags = pr.flags
  · rw [if_neg (by simp [same])]
    refine ⟨.true, h, rfl, ok, .refl _ _, .inr ⟨rfl, obj, sh, site, ?_, rfl⟩⟩
    obtain ⟨inside, value⟩ := List.getElem?_eq_some_iff.mp (getElem?_entries present)
    rw [same, ← value, List.set_getElem_self]
  · rw [if_pos same]
    obtain ⟨done, h1, obj1, sh1, prepared, ok1, frame1, kept, unhashed⟩ := jsShapePrepareUpdate_spec ok site mem
    simp only [prepared, bind_some]
    cases done with
    | false => exact ⟨.exception, h1, rfl, ok1, frame1, .inl ⟨rfl, kept.shows site⟩⟩
    | true =>
      have props1 := kept.toProps
      obtain ⟨props2, changed, size2, entries2, -⟩ := @setFlags_spec sh.toProps flags i pr present
      have holds2 : P props2 := closed.flagged (ok.props _ _ site.shape) changed
      rw [← props1] at changed size2
      obtain ⟨h2, change, ok2, frame2, site2⟩ :=
        changeProps_spec ok1 kept.site (unhashed rfl) changed holds2 size2
      simp only [change, bind_some]
      refine ⟨.true, h2, rfl, ok2, frame1.trans frame2, .inr ⟨rfl, obj1, _, site2, ?_, kept.proto⟩⟩
      rw [kept.prop, ← entries2]

/-- What an operation does with the property that it finds. -/
abbrev Finds (P : Props → Prop) (h : Heap V) (o : Nat) (sh : Shape) (atom : BitVec 32)
    (call : Option (Result × Heap V)) (effect : Nat → Result → Heap V → Prop) : Prop :=
  ∃ r h' found, call = some (r, h') ∧ Good P h' ∧ Frame (.object o) h h' ∧
    findOwnProperty sh.toProps atom = some found ∧ (found = none → r = .false ∧ h' = h) ∧ ∀ i, found = some i →
    effect i r h'

theorem finds_own {f : Nat → Option (Result × Heap V)} {effect : Nat → Result → Heap V → Prop}
    (acts : ∀ i pr, sh.prop[i]? = some pr → pr.atom = atom →
      ∃ r h', f i = some (r, h') ∧ Good P h' ∧ Frame (.object o) h h' ∧ effect i r h') :
    Finds P h o sh atom (do
      let obj ← h.object o
      let sh ← h.shape obj.shape
      match ← findOwnProperty sh.toProps atom with
      | none => some (.false, h)
      | some i => f i) effect := by
  have linked := closed.linked (ok.props _ _ site.shape)
  obtain ⟨found, search, isAtom⟩ := findOwnProperty_total linked atom
  simp only [site.object, site.shape, search, bind_eq_bind, bind_some]
  cases found with
  | none => exact ⟨.false, h, none, rfl, ok, .refl _ _, search, fun _ => ⟨rfl, rfl⟩, fun _ no => by cases no⟩
  | some i =>
    obtain ⟨pr, present, same⟩ := isAtom i rfl
    obtain ⟨r, h', called, ok', frame, done⟩ := acts i pr present same
    refine ⟨r, h', some i, called, ok', frame, search, (fun no => by cases no), ?_⟩
    rintro _ ⟨⟩
    exact done

theorem updateOwn_spec (mem : Memory) :
    Finds P h o sh atom (updateOwn o atom flags mem h) fun i r h' => r = .exception ∧ Shows h' o site.map sh.proto ∨
      r = .true ∧ Shows h' o (contents (sh.entries.set i (atom, flags)) obj.prop) sh.proto := by
  refine finds_own closed ok site fun i pr present same => ?_
  rw [← same]
  exact jsUpdatePropertyFlags_spec closed ok site present mem

theorem setOwn_spec (value : V) : Finds P h o sh atom (setOwn o atom value h) fun i r h' => r = .true ∧
      Shows h' o (contents sh.entries (Function.update obj.prop i value)) sh.proto := by
  refine finds_own closed ok site fun i pr present same => ?_
  have inside : i < obj.propAlloc := by
    have below := (List.getElem?_eq_some_iff.mp present).1
    have room := (closed.linked (ok.props _ _ site.shape)).room
    have size := ok.propSize_le site
    omega
  obtain ⟨h', written, ok', frame, site'⟩ := writeProp_spec value ok site inside
  exact ⟨.true, h', by simp [written], ok', frame, rfl, _, sh, site', rfl, rfl⟩

end Site

theorem reserve_spec {count : Nat} (closed : Closed P fits sizes) (ok : Good P h) (site : At h o obj sh)
    (small : sizes count) (mem : Memory) :
    ∃ r h', reserve o count mem h = some (r, h') ∧ Good P h' ∧ Frame (.object o) h h' ∧ (r = .exception ∨ r = .true) ∧
      Shows h' o site.map sh.proto := by
  obtain ⟨done, h1, obj1, sh1, prepared, ok1, frame1, kept, unhashed⟩ := jsShapePrepareUpdate_spec ok site mem
  simp only [reserve, prepared, bind_eq_bind, bind_some]
  cases done with
  | false => exact ⟨.exception, h1, rfl, ok1, frame1, .inl rfl, kept.shows site⟩
  | true =>
    simp only [kept.site.object, kept.site.shape, bind_some]
    by_cases grows : count > sh1.propSize
    · rw [if_pos grows]
      have holds1 := ok1.props _ _ kept.site.shape
      have linked1 := closed.linked holds1
      have room := linked1.room
      have out : sh1.isHashed = false := unhashed rfl
      have ok1' : Ok P h1 [] (looseIf sh1.isHashed obj1.shape) :=
        ok1.reloose fun r _ => by simp [looseIf, tight, out]
      obtain ⟨done, h2, obj2, sh2, resize, ok2, frame2, site2, values, grown, failed⟩ :=
        resizeProperties_spec ok1' kept.site (ok1.owned _ _ kept.site.shape out) linked1 (Nat.le_of_lt grows)
          (closed.resized holds1 (by omega) (Nat.le_of_lt grows) small) mem
      have ok2' : Good P h2 := ok2.reloose fun r _ => by simp [looseIf, tight, out]
      have entries : sh2.entries = sh1.entries ∧ sh2.proto = sh1.proto := by
        cases done with
        | true =>
          rw [grown rfl]
          exact ⟨resizedProps_entries count linked1, rfl⟩
        | false =>
          rw [(failed rfl).1]
          exact ⟨rfl, rfl⟩
      simp only [resize, bind_some]
      refine ⟨_, h2, rfl, ok2', frame1.trans frame2, by cases done <;> simp, obj2, sh2, site2, ?_,
        entries.2.trans kept.proto⟩
      rw [entries.1, values, kept.prop, kept.toProps]
      rfl
    · rw [if_neg grows]
      exact ⟨.true, h1, rfl, ok1, frame1, .inr rfl, kept.shows site⟩

theorem setPrototype_spec (ok : Good P h) (site : At h o obj sh) (proto : BitVec 64) (mem : Memory) :
    ∃ r h', setPrototype o proto mem h = some (r, h') ∧ Good P h' ∧ Frame (.object o) h h' ∧
      (r = .exception ∧ Shows h' o site.map sh.proto ∨ r = .true ∧ Shows h' o site.map proto) := by
  obtain ⟨done, h1, obj1, sh1, prepared, ok1, frame1, kept, unhashed⟩ := jsShapePrepareUpdate_spec ok site mem
  simp only [setPrototype, prepared, bind_eq_bind, bind_some]
  cases done with
  | false => exact ⟨.exception, h1, rfl, ok1, frame1, .inl ⟨rfl, kept.shows site⟩⟩
  | true =>
    simp only [kept.site.object, kept.site.shape, bind_some]
    have holds1 := ok1.props _ _ kept.site.shape
    have out : sh1.isHashed = false := unhashed rfl
    have changed := @Ok.change V P h1 sh1 { sh1 with proto := proto } o obj1 ok1 kept.site out holds1 out rfl rfl
    obtain ⟨ok2, frame2, site2⟩ := changed
    refine ⟨.true, _, rfl, ok2, frame1.trans frame2, .inr ⟨rfl, obj1, _, site2, ?_, rfl⟩⟩
    rw [kept.prop, show ({ sh1 with proto := proto } : Shape).entries = sh1.entries from rfl, kept.toProps]
    rfl

end Update

end Shapes
