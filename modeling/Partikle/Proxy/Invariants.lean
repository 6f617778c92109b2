import Partikle.Proxy.Core
import Mathlib.Tactic.MkIffOfInductiveProp

/-!
The invariants of the essential internal methods: what a proxy may answer, given what its target answers. The target
is asked behind the trap; it may itself be a proxy, whose answers are those of its own methods.
-/

namespace Proxy

open Option

variable {W E K V : Type} (env : Engine W E K V) (s : ProxyData W E K V)

def TrapReturns (name : String) (args : List V) (w : W) (ret : V) (w1 : W) : Prop :=
  ∃ method w0, getProxyMethod env s name w = some (.ok (some method, w0)) ∧
    env.call method s.handler (s.targetValue :: args) w0 = some (.ok (ret, w1))

def Owns (T : Object W E K V) (atom : K) (w1 : W) (d : Option (OwnDescriptor V)) (w2 : W) : Prop :=
  T.getOwnProperty atom w1 = some (.ok (d, w2))

def SaysNotExtensible (T : Object W E K V) (w : W) : Prop := ∃ w', T.isExtensible w = some (.ok (false, w'))

section Contradictions

variable (T : Object W E K V) (atom : K) (w1 : W)

def MustExist : Prop := ∃ d w2, Owns T atom w1 (some d) w2 ∧ (d.configurable = false ∨ SaysNotExtensible T w2)

/-- The property has another value, or none because it has no getter. -/
def OtherValue (v : V) : Prop :=
  ∃ d w2, Owns T atom w1 (some d) w2 ∧ d.configurable = false ∧
    (d.getset = false ∧ d.writable = false ∧ env.sameValue d.value v = false ∨
      d.getset = true ∧ env.isUndefined d.getter = true ∧ env.isUndefined v = false)

def CannotSet (v : V) : Prop :=
  ∃ d w2, Owns T atom w1 (some d) w2 ∧ d.configurable = false ∧
    (d.getset = false ∧ d.writable = false ∧ env.sameValue d.value v = false ∨
      d.getset = true ∧ env.isUndefined d.setter = true)

/-- A property like `d` can be reported as `r`: it could be redefined so, and no attribute is made stricter than it
is. -/
structure Reports (d r : OwnDescriptor V) : Prop where
  configurable : d.configurable = false → r.configurable = false
  enumerable : d.configurable = false → r.enumerable = d.enumerable
  kind : d.configurable = false → r.getset = d.getset
  getter : d.configurable = false → d.getset = true → env.sameValue d.getter r.getter = true
  setter : d.configurable = false → d.getset = true → env.sameValue d.setter r.setter = true
  writable : d.configurable = false → d.getset = false → d.writable = false → r.writable = false
  value : d.configurable = false → d.getset = false → d.writable = false → env.sameValue d.value r.value = true
  fixed : r.configurable = false → d.configurable = false
  readOnly : r.configurable = false → r.getset = false → r.writable = false → d.writable = false

def MisreportsOwn (r : OwnDescriptor V) : Prop :=
  ∃ d w2, Owns T atom w1 d w2 ∧ match d with
    | none => SaysNotExtensible T w2 ∨ r.configurable = false
    | some d => ¬Reports env d r

def WrongOwn : Option (OwnDescriptor V) → Prop
  | none => MustExist T atom w1
  | some r => MisreportsOwn env T atom w1 r

/-- A property like `d` can be redefined as `r` says, and nothing is made stricter in `r` than it is. -/
@[mk_iff] structure Redefines (d : OwnDescriptor V) (r : Descriptor V) : Prop where
  configurable : d.configurable = false → r.configurable ≠ some true
  enumerable : d.configurable = false → ∀ b, r.enumerable = some b → b = d.enumerable
  data : d.configurable = false → (r.value.isSome ∨ r.writable.isSome) → d.getset = false
  accessor : d.configurable = false → r.hasAccessor → d.getset = true
  getter : d.configurable = false → ∀ f, r.getter = some f → env.sameValue f d.getter = true
  setter : d.configurable = false → ∀ f, r.setter = some f → env.sameValue f d.setter = true
  writable : d.configurable = false → d.getset = false → d.writable = false → r.writable ≠ some true
  value : d.configurable = false → d.getset = false → d.writable = false →
    ∀ v, r.value = some v → env.sameValue v d.value = true
  fixed : r.configurable = some false → d.configurable = false
  readOnly : d.configurable = false → d.getset = false → d.writable = true → r.writable ≠ some false

def CannotDefine (r : Descriptor V) : Prop :=
  ∃ d w2, Owns T atom w1 d w2 ∧ match d with
    | none => SaysNotExtensible T w2 ∨ r.configurable = some false
    | some d => ¬Redefines env d r

def AnswersAll (T : Object W E K V) : List K → W → List (K × OwnDescriptor V) → W → Prop
  | [], w, found, w' => found = [] ∧ w = w'
  | name :: names, w, found, w' => ∃ d w2 rest, Owns T name w d w2 ∧ AnswersAll T names w2 rest w' ∧
      found = match d with
        | none => rest
        | some d => (name, d) :: rest

/-- The names are wrong, for a target that says whether it is extensible and then which properties it has. -/
def WrongNames (keys : List K) : Prop :=
  ¬keys.Nodup ∨ ∃ extensible w2 names w3 found w4, T.isExtensible w1 = some (.ok (extensible, w2)) ∧
    T.getOwnPropertyNames w2 = some (.ok (names, w3)) ∧ AnswersAll T names w3 found w4 ∧
    ((∃ e ∈ found, e.2.configurable = false ∧ e.1 ∉ keys) ∨
      extensible = false ∧ ((∃ e ∈ found, e.1 ∉ keys) ∨ ∃ k ∈ keys, k ∉ found.map Prod.fst))

def WrongPrototype (proto : V) : Prop :=
  ∃ w2 own w3, T.isExtensible w1 = some (.ok (false, w2)) ∧ T.getPrototype w2 = some (.ok (own, w3)) ∧
    env.sameObject own proto = false

/-- Reading the field of the target instead of asking it makes no difference. -/
def ReadAsAsked (w : W) : Prop := T.extensible w = true → ¬SaysNotExtensible T w

end Contradictions

variable {env s} {w w1 w' : W} {atom : K} {ret : V}

variable {α : Type} {w2' : W} {v : V} {names : List K}

theorem withTrap_eq {name : String} {args : List V} {forward : Effect W E α} {check : V → Effect W E α}
    (trap : TrapReturns env s name args w ret w1) : withTrap env s name args forward check w = check ret w1 := by
  obtain ⟨method, w0, found, called⟩ := trap
  exact (Effect.bind_of_ok found).trans (Effect.bind_of_ok called)

variable {T : Object W E K V} {d : OwnDescriptor V} {w2 : W}

theorem Owns.unique {d d' : Option (OwnDescriptor V)} (first : Owns T atom w1 d w2)
    (second : Owns T atom w1 d' w2') : d = d' ∧ w2 = w2' := by
  rw [Owns, first] at second
  cases second
  exact ⟨rfl, rfl⟩

theorem mustExist_iff (owns : Owns T atom w1 (some d) w2) :
    MustExist T atom w1 ↔ d.configurable = false ∨ SaysNotExtensible T w2 := by
  constructor
  · rintro ⟨d', w2', owns', must⟩
    obtain ⟨same, rfl⟩ := owns.unique owns'
    cases same
    exact must
  · exact fun must => ⟨d, w2, owns, must⟩

theorem not_mustExist (owns : Owns T atom w1 none w2) : ¬MustExist T atom w1 := by
  rintro ⟨d, w3, other, -⟩
  cases (owns.unique other).1

theorem readAsAsked_iff (owns : Owns T atom w1 (some d) w2) :
    (∀ d w2, Owns T atom w1 (some d) w2 → ReadAsAsked T w2) ↔ ReadAsAsked T w2 := by
  refine ⟨fun all => all d w2 owns, fun one d' w2' owns' => ?_⟩
  obtain ⟨-, rfl⟩ := owns.unique owns'
  exact one

/-- The check of `has` and of `getOwnPropertyDescriptor` when the trap denies the property. -/
theorem absence_consistent {a b : α} {e : E} {own : Option (OwnDescriptor V)}
    (returns : (match own with
      | none => pure a
      | some desc => do
        if !desc.configurable || !(← Effect.observe T.extensible) then Effect.throw e else pure a
      : Effect W E α) w2 = some (.ok (b, w')))
    (owns : Owns T atom w1 own w2) :
    a = b ∧ (¬MustExist T atom w1 ↔ ∀ d w2, Owns T atom w1 (some d) w2 → ReadAsAsked T w2) := by
  cases own with
  | none =>
    refine ⟨(Effect.pure_eq_ok.mp returns).1, iff_of_true (not_mustExist owns) fun d w3 other => ?_⟩
    cases (owns.unique other).1
  | some d =>
    simp only [Effect.bind_eq_ok, Effect.observe_eq_ok] at returns
    obtain ⟨extensible, w3, ⟨read, rfl⟩, rest⟩ := returns
    obtain ⟨fine, answer, -⟩ := Effect.throw_or_pure_eq_ok.mp rest
    have passed : d.configurable = true ∧ T.extensible w2 = true := by simpa [read] using fine
    rw [mustExist_iff owns, readAsAsked_iff owns]
    simp [ReadAsAsked, passed, answer]

theorem checkHas_consistent {b : Bool} (returns : checkHas env s atom ret w1 = some (.ok (b, w'))) :
    ¬(b = false ∧ MustExist s.target atom w1) ↔
      (env.toBool ret = false → ∀ d w2, Owns s.target atom w1 (some d) w2 → ReadAsAsked s.target w2) := by
  unfold checkHas at returns
  split at returns
  · rename_i answered
    simp only [Effect.pure_eq_ok] at returns
    simp [← returns.1, answered]
  · rename_i denied
    simp only [Effect.bind_eq_ok] at returns
    obtain ⟨own, w2, owns, rest⟩ := returns
    obtain ⟨rfl, consistent⟩ := absence_consistent rest owns
    simpa [denied] using consistent

theorem checkGet_consistent (returns : checkGet env s atom ret w1 = some (.ok (v, w'))) :
    ¬OtherValue env s.target atom w1 v := by
  rintro ⟨d, w2, owns, fixed, other⟩
  unfold checkGet at returns
  simp only [Effect.bind_eq_ok] at returns
  obtain ⟨own, w2', owns', rest⟩ := returns
  obtain ⟨rfl, rfl⟩ := owns.unique owns'
  rcases other with ⟨data, readOnly, different⟩ | ⟨accessor, noGetter, different⟩
  · simp only [data, fixed, readOnly, Bool.not_false, Bool.and_self, ↓reduceIte] at rest
    obtain ⟨same, answer, -⟩ := Effect.pure_or_throw_eq_ok.mp rest
    simp [answer, different] at same
  · simp only [accessor, fixed, noGetter, Bool.not_true, Bool.false_and, Bool.not_false, Bool.and_self,
      Bool.false_eq_true, ↓reduceIte, Bool.true_and] at rest
    obtain ⟨same, answer, -⟩ := Effect.throw_or_pure_eq_ok.mp rest
    rw [answer, different] at same
    simp at same

theorem checkSet_consistent {throws : Bool}
    (returns : checkSet env s atom v throws ret w1 = some (.ok (true, w'))) : ¬CannotSet env s.target atom w1 v := by
  rintro ⟨d, w2, owns, fixed, other⟩
  unfold checkSet at returns
  split at returns
  · simp only [Effect.bind_eq_ok] at returns
    obtain ⟨own, w2', owns', rest⟩ := returns
    obtain ⟨rfl, rfl⟩ := owns.unique owns'
    rcases other with ⟨data, readOnly, different⟩ | ⟨accessor, noSetter⟩
    · simp [data, fixed, readOnly, different] at rest
    · simp [accessor, fixed, noSetter] at rest
  · split at returns
    · exact absurd returns Effect.throw_ne_ok
    · simp at returns

theorem checkDeleteProperty_consistent
    (returns : checkDeleteProperty env s atom ret w1 = some (.ok (true, w'))) : ¬MustExist s.target atom w1 := by
  unfold checkDeleteProperty at returns
  split at returns
  · simp only [Effect.bind_eq_ok] at returns
    obtain ⟨own, w2, owns, rest⟩ := returns
    cases own with
    | none => exact not_mustExist owns
    | some d =>
      rw [mustExist_iff owns]
      by_cases fixed : d.configurable = false
      · simp [fixed] at rest
      · have loose : d.configurable = true := by simpa using fixed
        simp only [loose, Bool.not_true, Bool.false_eq_true, ↓reduceIte, Effect.bind_eq_ok] at rest
        obtain ⟨extensible, w3, asked, rest⟩ := rest
        rintro (no | ⟨w4, denies⟩)
        · exact fixed no
        · rw [asked] at denies
          cases denies
          simp at rest
  · simp at returns

theorem checkGetPrototypeOf_consistent {proto : V}
    (returns : checkGetPrototypeOf env s ret w1 = some (.ok (proto, w'))) : ¬WrongPrototype env s.target w1 proto := by
  rintro ⟨w2, own, w3, asked, answers, different⟩
  unfold checkGetPrototypeOf at returns
  split at returns
  · exact absurd returns Effect.throw_ne_ok
  · simp only [Effect.bind_eq_ok] at returns
    obtain ⟨extensible, w2', asked', rest⟩ := returns
    rw [asked] at asked'
    cases asked'
    simp only [Bool.false_eq_true, ↓reduceIte, Effect.bind_eq_ok] at rest
    obtain ⟨own', w3', answers', rest⟩ := rest
    rw [answers] at answers'
    cases answers'
    obtain ⟨same, answer, -⟩ := Effect.pure_or_throw_eq_ok.mp rest
    simp [answer, different] at same

/-- The condition under which the answer of `js_proxy_get_own_property` is right: reading the field of the target is
as good as asking it when the property is denied; a property that is reported and that the target has fixed is not an
accessor, and has the value that the trap has given. -/
structure TrueToTarget (env : Engine W E K V) (T : Object W E K V) (atom : K) (w1 : W) (ret : V) : Prop where
  absent : env.isUndefined ret = true → ∀ d w2, Owns T atom w1 (some d) w2 → ReadAsAsked T w2
  present : env.isUndefined ret = false → ∀ d w2, Owns T atom w1 (some d) w2 → d.configurable = false →
    d.getset = false ∧ (d.writable = false → ∀ extensible w3 given w4,
      T.isExtensible w2 = some (.ok (extensible, w3)) → objToDesc env ret w3 = some (.ok (given, w4)) →
      env.sameValue d.value (given.value.getD env.undefined) = true)

theorem reports_iff {given : Descriptor V}
    (compatible : checkDefinePropFlags d (some (given.stored env).configurable) (some (given.stored env).writable)
      (some (given.stored env).enumerable) true given.hasAccessor = true)
    (bound : ((given.stored env).configurable ||
      (!d.configurable && ((given.stored env).writable || !d.writable))) = true) :
    Reports env d (given.stored env) ↔ (d.configurable = false → d.getset = false ∧
      (d.writable = false → env.sameValue d.value (given.value.getD env.undefined) = true)) := by
  have kind : (given.stored env).getset = false := rfl
  have value : (given.stored env).value = given.value.getD env.undefined := rfl
  constructor
  · intro reports fixed
    have data : d.getset = false := (reports.kind fixed).symm.trans kind
    exact ⟨data, fun readOnly => value ▸ reports.value fixed data readOnly⟩
  · intro holds
    by_cases fixed : d.configurable = false
    · obtain ⟨data, same⟩ := holds fixed
      generalize given.stored env = r at compatible bound kind value
      simp only [checkDefinePropFlags, fixed, data, Bool.false_or, isSome_some, Bool.true_or, Bool.not_true,
        Bool.and_eq_true, Bool.not_eq_true', beq_eq_false_iff_ne, ne_eq, some.injEq, Bool.or_eq_true,
        beq_iff_eq, reduceCtorEq, false_or] at compatible
      obtain ⟨⟨notConfigurable, enumerable⟩, accessor, writable⟩ := compatible
      have strict : r.configurable = false := by simpa using notConfigurable
      refine ⟨fun _ => strict, fun _ => enumerable, fun _ => kind.trans data.symm, ?_, ?_, ?_, ?_, fun _ => fixed, ?_⟩
      · intro _ isAccessor
        simp [data] at isAccessor
      · intro _ isAccessor
        simp [data] at isAccessor
      · intro _ _ readOnly
        simpa [accessor, readOnly] using writable
      · intro _ _ readOnly
        rw [value]
        exact same readOnly
      · intro _ _ readOnly
        simpa [strict, fixed, readOnly] using bound
    · have loose : d.configurable = true := by simpa using fixed
      have loose' : (given.stored env).configurable = true := by simpa [loose] using bound
      constructor <;> simp [loose, loose']

theorem checkGetOwnProperty_consistent {answer : Option (OwnDescriptor V)}
    (returns : checkGetOwnProperty env s atom ret w1 = some (.ok (answer, w'))) :
    ¬WrongOwn env s.target atom w1 answer ↔ TrueToTarget env s.target atom w1 ret := by
  unfold checkGetOwnProperty at returns
  split at returns
  · exact absurd returns Effect.throw_ne_ok
  · simp only [Effect.bind_eq_ok] at returns
    obtain ⟨own, w2, answered, rest⟩ := returns
    have owns : Owns s.target atom w1 own w2 := answered
    split at rest
    · rename_i denied
      obtain ⟨rfl, consistent⟩ := absence_consistent rest owns
      refine consistent.trans ⟨fun all => ⟨fun _ => all, ?_⟩, fun holds => holds.absent denied⟩
      intro not
      simp [denied] at not
    · rename_i given'
      have given : env.isUndefined ret = false := by simpa using given'
      simp only [Effect.bind_eq_ok] at rest
      obtain ⟨extensible, w3, asked, desc, w4, read, rest⟩ := rest
      cases own with
      | none =>
        obtain ⟨checked, rfl, -⟩ := Effect.pure_or_throw_eq_ok.mp rest
        simp only [Bool.and_eq_true] at checked
        refine iff_of_true ?_ ⟨fun undefined => by simp [given] at undefined, ?_⟩
        · rintro ⟨d, w2', owns', wrong⟩
          obtain ⟨rfl, rfl⟩ := owns.unique owns'
          rcases wrong with ⟨w3', denies⟩ | fixed
          · rw [asked] at denies
            cases denies
            cases checked.1
          · rw [fixed] at checked
            cases checked.2
        · intro _ d w2' owns'
          cases (owns.unique owns').1
      | some d =>
        obtain ⟨checked, rfl, -⟩ := Effect.pure_or_throw_eq_ok.mp rest
        simp only [Bool.and_eq_true] at checked
        have report := reports_iff checked.1 checked.2
        have misreports : MisreportsOwn env s.target atom w1 (desc.stored env) ↔ ¬Reports env d (desc.stored env) := by
          refine ⟨?_, fun wrong => ⟨some d, w2, owns, wrong⟩⟩
          rintro ⟨d', w2', owns', wrong⟩
          obtain ⟨rfl, rfl⟩ := owns.unique owns'
          exact wrong
        rw [WrongOwn, misreports, not_not, report]
        constructor
        · intro consistent
          refine ⟨fun undefined => by simp [given] at undefined, ?_⟩
          intro _ d' w2' owns' fixed
          obtain ⟨same, rfl⟩ := owns.unique owns'
          cases same
          obtain ⟨data, value⟩ := consistent fixed
          refine ⟨data, fun readOnly extensible' w3' desc' w4' asked' read' => ?_⟩
          rw [asked] at asked'
          cases asked'
          rw [read] at read'
          cases read'
          exact value readOnly
        · intro holds fixed
          obtain ⟨data, value⟩ := holds.present given d w2 owns fixed
          exact ⟨data, fun readOnly => value readOnly extensible w3 desc w4 asked read⟩

section Definitions

variable {own : Option (OwnDescriptor V)} {r : Descriptor V} {throws : Bool}

/-- A fixed writable data property is left alone: the descriptor has no value, and no attribute writable. -/
def LeavesWritable (d : OwnDescriptor V) (r : Descriptor V) : Prop :=
  d.configurable = false → d.getset = false → d.writable = true → r.value = none ∧ r.writable = none

theorem check_none_iff (accepted : env.toBool ret = true) (owns : Owns s.target atom w1 none w2) :
    checkDefineOwnProperty env s atom r throws ret w1 = some (.ok (true, w')) ↔
      (s.target.extensible w2 = true ∧ r.configurable ≠ some false) ∧ w2 = w' := by
  unfold checkDefineOwnProperty
  simp only [accepted, Bool.not_true, Bool.false_eq_true, ↓reduceIte, Effect.bind_of_ok owns]
  rw [Effect.bind_of_ok (show Effect.observe s.target.extensible w2 = some (.ok (_, w2)) from rfl),
    Effect.throw_or_pure_eq_ok]
  simp

theorem check_some_iff (accepted : env.toBool ret = true) (owns : Owns s.target atom w1 (some d) w2) :
    checkDefineOwnProperty env s atom r throws ret w1 = some (.ok (true, w')) ↔
      (Redefines env d r ∧ LeavesWritable d r) ∧ w2 = w' := by
  unfold checkDefineOwnProperty
  simp only [accepted, Bool.not_true, Bool.false_eq_true, ↓reduceIte, Effect.bind_of_ok owns]
  rw [Effect.pure_or_throw_eq_ok, and_iff_right (rfl : true = true), redefines_iff]
  refine and_congr_left' ?_
  obtain ⟨configurable, writable, enumerable, getset, value, getter, setter⟩ := d
  obtain ⟨configurable', writable', enumerable', value', getter', setter', proper⟩ := r
  cases configurable with
  | true => cases writable <;> cases getset <;> simp [checkDefinePropFlags, LeavesWritable]
  | false =>
    cases getter' <;> cases setter' <;> cases value' <;> cases writable' <;> simp at proper <;>
      cases getset <;> cases writable <;> cases enumerable' <;>
      simp [checkDefinePropFlags, LeavesWritable, Descriptor.hasAccessor, and_assoc]

theorem cannotDefine_iff : Owns s.target atom w1 own w2 → (CannotDefine env s.target atom w1 r ↔ match own with
    | none => SaysNotExtensible s.target w2 ∨ r.configurable = some false
    | some d => ¬Redefines env d r) := by
  intro owns
  constructor
  · rintro ⟨own', w2', owns', wrong⟩
    obtain ⟨rfl, rfl⟩ := owns.unique owns'
    exact wrong
  · exact fun wrong => ⟨own, w2, owns, wrong⟩

theorem checkDefineOwnProperty_consistent
    (returns : checkDefineOwnProperty env s atom r throws ret w1 = some (.ok (true, w'))) :
    ¬CannotDefine env s.target atom w1 r ↔ ∀ w2, Owns s.target atom w1 none w2 → ReadAsAsked s.target w2 := by
  cases accepted : env.toBool ret with
  | false => cases throws <;> simp [checkDefineOwnProperty, accepted] at returns
  | true =>
    have asks := returns
    unfold checkDefineOwnProperty at asks
    simp only [accepted, Bool.not_true, Bool.false_eq_true, ↓reduceIte, Effect.bind_eq_ok] at asks
    obtain ⟨own, w2, answered, -⟩ := asks
    have owns : Owns s.target atom w1 own w2 := answered
    rw [cannotDefine_iff owns]
    cases own with
    | none =>
      obtain ⟨⟨field, loose⟩, -⟩ := (check_none_iff accepted owns).mp returns
      constructor
      · intro consistent w2' owns' _ denies
        obtain ⟨-, rfl⟩ := owns.unique owns'
        exact consistent (.inl denies)
      · rintro asked (denies | fixed)
        · exact asked w2 owns field denies
        · exact loose fixed
    | some d =>
      obtain ⟨⟨redefines, -⟩, -⟩ := (check_some_iff accepted owns).mp returns
      exact iff_of_true (not_not.mpr redefines) fun w2' owns' =>
        (some_ne_none d (owns.unique owns').1).elim

end Definitions

section Names

theorem AnswersAll.unique {T : Object W E K V} {found found' : List (K × OwnDescriptor V)} {w2 : W}
    (first : AnswersAll T names w found w2) (second : AnswersAll T names w found' w2') : found = found' := by
  induction names generalizing w found found' with
  | nil => rw [first.1, second.1]
  | cons name names ih =>
    obtain ⟨d, w3, rest, owns, answers, rfl⟩ := first
    obtain ⟨d', w3', rest', owns', answers', rfl⟩ := second
    obtain ⟨rfl, rfl⟩ := owns.unique owns'
    rw [ih answers answers']

variable [DecidableEq K]

theorem markKeys_answers {extensible : Bool} {tab tab' : List (K × Bool)}
    (returns : markKeys env s extensible names tab w = some (.ok (tab', w'))) :
    tab'.map Prod.fst = tab.map Prod.fst ∧ ∃ found, AnswersAll s.target names w found w' ∧ (∀ e ∈ found,
      e.2.configurable = false ∨ extensible = false → e.1 ∈ tab.map Prod.fst) ∧ ∀ e ∈ tab', e.2 = true →
      (e.1, true) ∈ tab ∨ e.1 ∈ found.map Prod.fst := by
  induction names generalizing tab w with
  | nil =>
    obtain ⟨rfl, rfl⟩ := returns
    refine ⟨rfl, [], ⟨rfl, rfl⟩, by simp, ?_⟩
    rintro ⟨k, marked⟩ inside rfl
    exact .inl inside
  | cons name names ih =>
    simp only [markKeys, Effect.bind_eq_ok, Effect.observe_eq_ok] at returns
    obtain ⟨revoked, w1, ⟨-, rfl⟩, rest⟩ := returns
    cases revoked with
    | true => simp at rest
    | false =>
      simp only [Bool.false_eq_true, ↓reduceIte, Effect.bind_eq_ok] at rest
      obtain ⟨own, w2, owns, rest⟩ := rest
      cases own with
      | none =>
        obtain ⟨same, found, answers, present, marks⟩ := ih rest
        exact ⟨same, found, ⟨none, w2, found, owns, answers, rfl⟩, present, marks⟩
      | some desc =>
        -- the name is looked for only if it has to be there
        have continues : ∀ tab1, markKeys env s extensible names tab1 w2 = some (.ok (tab', w')) →
            tab1.map Prod.fst = tab.map Prod.fst →
            (desc.configurable = false ∨ extensible = false → name ∈ tab.map Prod.fst) →
            (∀ e ∈ tab1, e.2 = true → (e.1, true) ∈ tab ∨ e.1 = name) →
            tab'.map Prod.fst = tab.map Prod.fst ∧ ∃ found, AnswersAll s.target (name :: names) w found w' ∧
              (∀ e ∈ found, e.2.configurable = false ∨ extensible = false → e.1 ∈ tab.map Prod.fst) ∧
              ∀ e ∈ tab', e.2 = true → (e.1, true) ∈ tab ∨ e.1 ∈ found.map Prod.fst := by
          intro tab1 rest1 keys needed before
          obtain ⟨same, found, answers, present, marks⟩ := ih rest1
          refine ⟨same.trans keys, (name, desc) :: found, ⟨some desc, w2, found, owns, answers, rfl⟩, ?_, ?_⟩
          · intro e inside must
            rcases List.mem_cons.mp inside with rfl | later
            · exact needed must
            · exact keys ▸ present e later must
          · intro e inside marked
            rcases marks e inside marked with old | new
            · rcases before (e.1, true) old rfl with older | here
              · exact .inl older
              · exact .inr (List.mem_cons.mpr (.inl here))
            · exact .inr (.tail _ new)
        dsimp only at rest
        split at rest
        · split at rest
          · rename_i present
            have inside : name ∈ tab.map Prod.fst := by
              simp only [List.any_eq_true, decide_eq_true_eq] at present
              obtain ⟨e, there, rfl⟩ := present
              exact List.mem_map_of_mem there
            refine continues _ rest ?_ (fun _ => inside) ?_
            · split
              · rfl
              · simp
            · intro e there marked
              split at there
              · exact .inl (marked ▸ there)
              · simp only [List.mem_map] at there
                obtain ⟨e', there', rfl⟩ := there
                simp only [Bool.or_eq_true, decide_eq_true_eq] at marked
                rcases marked with old | new
                · exact .inl (old ▸ there')
                · exact .inr new
          · exact absurd rest Effect.throw_ne_ok
        · rename_i loose
          refine continues tab rest rfl (fun must => ?_) fun e there marked => .inl (marked ▸ there)
          simp only [Bool.or_eq_true, Bool.not_eq_true'] at loose
          exact absurd must loose

theorem checkGetOwnPropertyNames_consistent {keys : List K}
    (returns : checkGetOwnPropertyNames env s ret w1 = some (.ok (keys, w'))) :
    ∃ len w2 w3, env.getLength ret w1 = some (.ok (len, w2)) ∧ readKeys env ret 0 len w2 = some (.ok (keys, w3)) ∧
      ¬WrongNames s.target w3 keys := by
  unfold checkGetOwnPropertyNames at returns
  simp only [Effect.bind_eq_ok] at returns
  obtain ⟨len, w2, length, read, w3, readAll, rest⟩ := returns
  split at rest
  · exact absurd rest Effect.throw_ne_ok
  · rename_i distinct
    simp only [Effect.bind_eq_ok, Effect.observe_eq_ok] at rest
    obtain ⟨extensible, w4, asked, revoked, w5, ⟨-, rfl⟩, rest⟩ := rest
    cases revoked with
    | true => simp at rest
    | false =>
      simp only [Bool.false_eq_true, ↓reduceIte, Effect.bind_eq_ok] at rest
      obtain ⟨names, w6, named, tab, w7, marked, rest⟩ := rest
      obtain ⟨complete, rfl, -⟩ := Effect.throw_or_pure_eq_ok.mp rest
      obtain ⟨same, found, answers, present, marks⟩ := markKeys_answers marked
      have listed : (read.map (·, false)).map Prod.fst = read := by simp [Function.comp_def]
      rw [listed] at same present
      refine ⟨len, w2, w3, length, readAll, ?_⟩
      rintro (duplicate | ⟨extensible', w4', names', w6', found', w7', asked', named', answers', wrong⟩)
      · exact distinct duplicate
      · rw [asked] at asked'
        cases asked'
        rw [named] at named'
        cases named'
        obtain rfl := answers.unique answers'
        rcases wrong with ⟨e, inside, fixed, missing⟩ | ⟨rfl, ⟨e, inside, missing⟩ | ⟨k, inside, unknown⟩⟩
        · exact missing (present e inside (.inl fixed))
        · exact missing (present e inside (.inr rfl))
        · have all : ∀ e ∈ tab, e.2 = true := by simpa using complete
          rw [← same] at inside
          obtain ⟨e, there, rfl⟩ := List.mem_map.mp inside
          rcases marks e there (all e there) with before | here
          · simp at before
          · exact unknown here

end Names

/-- What a proxy answers behind a trap that returns. The answers of get, set, deleteProperty, ownKeys and
getPrototypeOf never contradict what its target says; those of has and defineProperty exactly if it makes no
difference to read the field of the target instead of asking it, and those of getOwnPropertyDescriptor exactly if
moreover a fixed property of the target is a data property and has the value that the trap has given. -/
theorem proxy_keeps_invariants [DecidableEq K] (env : Engine W E K V) (s : ProxyData W E K V)
    (createDesc : Descriptor V → V) (w : W) :
    (∀ atom ret w1 b w', TrapReturns env s "has" [env.atomToValue atom] w ret w1 →
      (proxy env s createDesc).hasProperty atom w = some (.ok (b, w')) →
      (¬(b = false ∧ MustExist s.target atom w1) ↔
        (env.toBool ret = false → ∀ d w2, Owns s.target atom w1 (some d) w2 → ReadAsAsked s.target w2))) ∧
    (∀ atom receiver ret w1 v w', TrapReturns env s "get" [env.atomToValue atom, receiver] w ret w1 →
      (proxy env s createDesc).getProperty atom receiver w = some (.ok (v, w')) →
      ¬OtherValue env s.target atom w1 v) ∧
    (∀ atom value receiver throws ret w1 w',
      TrapReturns env s "set" [env.atomToValue atom, value, receiver] w ret w1 →
      (proxy env s createDesc).setProperty atom value receiver throws w = some (.ok (true, w')) →
      ¬CannotSet env s.target atom w1 value) ∧
    (∀ atom ret w1 answer w', TrapReturns env s "getOwnPropertyDescriptor" [env.atomToValue atom] w ret w1 →
      (proxy env s createDesc).getOwnProperty atom w = some (.ok (answer, w')) →
      (¬WrongOwn env s.target atom w1 answer ↔ TrueToTarget env s.target atom w1 ret)) ∧
    (∀ atom r throws ret w1 w',
      TrapReturns env s "defineProperty" [env.atomToValue atom, createDesc r] w ret w1 →
      (proxy env s createDesc).defineOwnProperty atom r throws w = some (.ok (true, w')) →
      (¬CannotDefine env s.target atom w1 r ↔ ∀ w2, Owns s.target atom w1 none w2 → ReadAsAsked s.target w2)) ∧
    (∀ atom ret w1 w', TrapReturns env s "deleteProperty" [env.atomToValue atom] w ret w1 →
      (proxy env s createDesc).deleteProperty atom w = some (.ok (true, w')) → ¬MustExist s.target atom w1) ∧
    (∀ ret w1 keys w', TrapReturns env s "ownKeys" [] w ret w1 →
      (proxy env s createDesc).getOwnPropertyNames w = some (.ok (keys, w')) →
      ∃ len w2 w3, env.getLength ret w1 = some (.ok (len, w2)) ∧ readKeys env ret 0 len w2 = some (.ok (keys, w3)) ∧
        ¬WrongNames s.target w3 keys) ∧
    ∀ ret w1 proto w', TrapReturns env s "getPrototypeOf" [] w ret w1 →
      (proxy env s createDesc).getPrototype w = some (.ok (proto, w')) → ¬WrongPrototype env s.target w1 proto := by
  refine ⟨?_, ?_, ?_, ?_, ?_, ?_, ?_, ?_⟩
  · intro atom ret w1 b w' trap returns
    exact checkHas_consistent ((withTrap_eq trap).symm.trans returns)
  · intro atom receiver ret w1 v w' trap returns
    exact checkGet_consistent ((withTrap_eq trap).symm.trans returns)
  · intro atom value receiver throws ret w1 w' trap returns
    exact checkSet_consistent ((withTrap_eq trap).symm.trans returns)
  · intro atom ret w1 answer w' trap returns
    exact checkGetOwnProperty_consistent ((withTrap_eq trap).symm.trans returns)
  · intro atom r throws ret w1 w' trap returns
    exact checkDefineOwnProperty_consistent ((withTrap_eq trap).symm.trans returns)
  · intro atom ret w1 w' trap returns
    exact checkDeleteProperty_consistent ((withTrap_eq trap).symm.trans returns)
  · intro ret w1 keys w' trap returns
    exact checkGetOwnPropertyNames_consistent ((withTrap_eq trap).symm.trans returns)
  · intro ret w1 proto w' trap returns
    exact checkGetPrototypeOf_consistent ((withTrap_eq trap).symm.trans returns)

inductive Sample where
  | undefined
  | bool (b : Bool)
  | number (n : Nat)
  | object
  | trap (name : String)
  | descriptor
deriving DecidableEq

/-- The traps get and getOwnPropertyDescriptor return the number 1, and a fixed property with the value 2. -/
def sampleEngine : Engine Unit String Unit Sample where
  undefined := .undefined
  isUndefined := fun v => v = .undefined
  isNull := fun _ => false
  isObject := fun v => v = .object || v = .descriptor
  isFunction := fun _ => false
  toBool := fun v => v = .bool true
  sameValue := fun v v' => v = v'
  sameObject := fun v v' => v = v'
  atomToValue := fun _ => .object
  valueToAtom := fun _ => none
  typeError := id
  stackOverflowError := "stack overflow"
  stackOverflow := fun _ => false
  hasProperty := fun _ name => pure (.ok (name ≠ "get" && name ≠ "set"))
  getProperty := fun v name => pure (match v, name with
    | .object, name => .trap name
    | .descriptor, "value" => .number 2
    | .descriptor, "enumerable" => .bool true
    | _, _ => .bool false)
  getLength := fun _ => pure 0
  getElement := fun _ _ => pure .undefined
  call := fun method _ _ => pure (if method = .trap "get" then .number 1 else .descriptor)

def frozen : Object Unit String Unit Sample where
  extensible := fun _ => false
  isExtensible := pure false
  getPrototype := pure .object
  getOwnProperty := fun _ => pure (some ⟨false, false, true, false, .number 1, .undefined, .undefined⟩)
  defineOwnProperty := fun _ _ _ => pure false
  hasProperty := fun _ => pure true
  getProperty := fun _ _ => pure (.number 1)
  setProperty := fun _ _ _ _ => pure false
  deleteProperty := fun _ => pure false
  getOwnPropertyNames := pure [()]

def sampleProxy : ProxyData Unit String Unit Sample := ⟨frozen, .object, .object, fun _ => false⟩

theorem proxy_keeps_invariants_get : ¬OtherValue sampleEngine frozen () () (.number 1) :=
  (proxy_keeps_invariants sampleEngine sampleProxy (fun _ => .object) ()).2.1 () .object (.number 1) () (.number 1) ()
    ⟨.trap "get", (), rfl, rfl⟩ rfl

/-- The proxy of a frozen object reports another value for its property. -/
theorem proxy_misreports_frozen :
    ∃ r w', (proxy sampleEngine sampleProxy fun _ => .object).getOwnProperty () () = some (.ok (some r, w')) ∧
      r.configurable = false ∧ r.writable = false ∧ r.value = .number 2 ∧
      WrongOwn sampleEngine frozen () () (some r) := by
  refine ⟨_, _, rfl, rfl, rfl, rfl, some _, (), rfl, fun reports => ?_⟩
  have same := reports.value rfl rfl rfl
  revert same
  decide

end Proxy
