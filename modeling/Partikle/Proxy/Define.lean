import Partikle.Proxy.Invariants

/-!
When `js_proxy_define_own_property` throws after its trap has returned true. In ECMAScript it does exactly if the target
throws when it is asked whether it is extensible, or cannot have been given such a property (`CannotDefine`).
-/

namespace Proxy

variable {W E K V : Type} {env : Engine W E K V} {s : ProxyData W E K V} {w w1 w2 w3 : W} {atom : K} {ret : V}
  {own : Option (OwnDescriptor V)} {d : OwnDescriptor V} {r : Descriptor V} {throws field : Bool}
  {answer : Except E (Bool × W)}

/-- `[[DefineOwnProperty]]` of ECMAScript throws, once the trap has returned true. -/
def MustThrow (env : Engine W E K V) (T : Object W E K V) (atom : K) (w1 : W) (r : Descriptor V) : Prop :=
  (∃ own w2 e, Owns T atom w1 own w2 ∧ T.isExtensible w2 = some (.error e)) ∨ CannotDefine env T atom w1 r

/-- A fixed writable data property is left alone, or the descriptor would change another attribute or make it
read-only. -/
def SparesWritable (d : OwnDescriptor V) (r : Descriptor V) : Prop :=
  LeavesWritable d r ∨ r.configurable = some true ∨ r.enumerable = some !d.enumerable ∨ r.writable = some false

/-- The field of a target without the property agrees with its answer, or the descriptor is refused anyway, and a fixed
writable data property is spared. A target that throws when it is asked has to be refused. -/
def SeenRight (env : Engine W E K V) (field : Bool) (r : Descriptor V) :
    Except E (Bool × W) → Option (OwnDescriptor V) → Prop
  | .ok (extensible, _), none => field = extensible ∨ r.configurable = some false
  | .ok _, some d => SparesWritable d r
  | .error _, none => field = false ∨ r.configurable = some false
  | .error _, some d => ¬Redefines env d r ∨ ¬LeavesWritable d r

variable (env) in
theorem sparesWritable_iff : SparesWritable d r ↔ (Redefines env d r → LeavesWritable d r) := by
  constructor
  · rintro (leaves | other) redefines fixed data isWritable
    · exact leaves fixed data isWritable
    · rcases other with changed | changed | changed
      · exact absurd changed (redefines.configurable fixed)
      · simpa using redefines.enumerable fixed _ changed
      · exact absurd changed (redefines.readOnly fixed data isWritable)
  · intro leaves
    refine or_iff_not_imp_right.mpr fun other fixed data isWritable => ?_
    simp only [not_or] at other
    obtain ⟨loose, enumerable, readOnly⟩ := other
    cases has : r.hasAccessor with
    | true => exact r.proper (by simpa [Descriptor.hasAccessor] using has)
    | false =>
      refine leaves ?_ fixed data isWritable
      have none' : r.getter = none ∧ r.setter = none := by simpa [Descriptor.hasAccessor] using has
      have same : ∀ b, r.enumerable = some b → b = d.enumerable := by
        intro b given
        simpa [given] using enumerable
      constructor <;> simp_all

theorem check_throws_iff (accepted : env.toBool ret = true) (owns : Owns s.target atom w1 own w2) :
    (∃ e, checkDefineOwnProperty env s atom r throws ret w1 = some (.error e)) ↔
      ¬checkDefineOwnProperty env s atom r throws ret w1 = some (.ok (true, w2)) := by
  have ends : checkDefineOwnProperty env s atom r throws ret w1 = some (.ok (true, w2)) ∨
      ∃ e, checkDefineOwnProperty env s atom r throws ret w1 = some (.error e) := by
    unfold checkDefineOwnProperty
    simp only [accepted, Bool.not_true, Bool.false_eq_true, ↓reduceIte, Effect.bind_of_ok owns]
    cases own with
    | none => exact (em _).symm.imp (fun fine => congrFun (if_neg fine) w2) fun not => ⟨_, congrFun (if_pos not) w2⟩
    | some d => exact (em _).imp (fun fine => congrFun (if_pos fine) w2) fun not => ⟨_, congrFun (if_neg not) w2⟩
  rcases ends with returns | ⟨e, thrown⟩
  · rw [returns]
    exact iff_of_false nofun fun not => not rfl
  · rw [thrown]
    exact iff_of_true ⟨e, rfl⟩ nofun

theorem mustThrow_iff (owns : Owns s.target atom w1 own w2) (asked : s.target.isExtensible w2 = some answer) :
    MustThrow env s.target atom w1 r ↔ (∃ e, answer = .error e) ∨ match own with
      | none => (∃ w3, answer = .ok (false, w3)) ∨ r.configurable = some false
      | some d => ¬Redefines env d r := by
  have throws : (∃ own' w2' e, Owns s.target atom w1 own' w2' ∧ s.target.isExtensible w2' = some (.error e)) ↔
      ∃ e, answer = .error e := by
    constructor
    · rintro ⟨own', w2', e, owns', thrown⟩
      obtain ⟨-, rfl⟩ := owns.unique owns'
      exact ⟨e, Option.some.inj (asked.symm.trans thrown)⟩
    · rintro ⟨e, rfl⟩
      exact ⟨own, w2, e, owns, asked⟩
  rw [MustThrow, throws, cannotDefine_iff owns]
  cases own with
  | none => simp [SaysNotExtensible, asked]
  | some d => rfl

theorem defineOwnProperty_throws_iff [DecidableEq K] (env : Engine W E K V) (s : ProxyData W E K V)
    (createDesc : Descriptor V → V) (r : Descriptor V) (throws : Bool)
    (trap : TrapReturns env s "defineProperty" [env.atomToValue atom, createDesc r] w ret w1)
    (accepted : env.toBool ret = true) (owns : Owns s.target atom w1 own w2)
    (asked : s.target.isExtensible w2 = some answer) :
    ((∃ e, (proxy env s createDesc).defineOwnProperty atom r throws w = some (.error e)) ↔
      MustThrow env s.target atom w1 r) ↔ SeenRight env (s.target.extensible w2) r answer own := by
  have runs : (proxy env s createDesc).defineOwnProperty atom r throws w =
      checkDefineOwnProperty env s atom r throws ret w1 := withTrap_eq trap
  rw [runs, check_throws_iff accepted owns, mustThrow_iff owns asked]
  rcases answer with e | ⟨extensible, w3⟩
  · have must : ∃ e', (Except.error e : Except E (Bool × W)) = .error e' := ⟨e, rfl⟩
    rw [iff_true_right (Or.inl must)]
    cases own with
    | none =>
      rw [check_none_iff accepted owns, and_iff_left rfl, not_and_or]
      simp [SeenRight]
    | some d => rw [check_some_iff accepted owns, and_iff_left rfl, not_and_or, SeenRight]
  · have quiet : ¬∃ e, (Except.ok (extensible, w3) : Except E (Bool × W)) = .error e := nofun
    rw [or_iff_right quiet]
    cases own with
    | none =>
      have denies : (∃ w4, (Except.ok (extensible, w3) : Except E (Bool × W)) = .ok (false, w4)) ↔
          extensible = false := by simp
      rw [check_none_iff accepted owns, and_iff_left rfl, denies, SeenRight]
      cases s.target.extensible w2 <;> cases extensible <;> by_cases fixes : r.configurable = some false <;>
        simp [fixes]
    | some d =>
      rw [check_some_iff accepted owns, and_iff_left rfl, SeenRight, sparesWritable_iff env, not_iff_not,
        and_iff_left_iff_imp]

/-- Every trap returns true. -/
def trustingEngine : Engine Unit String Unit Sample := { sampleEngine with call := fun _ _ _ => pure (.bool true) }

/-- A target with one property, which is fixed and writable and has the value 1. -/
def sealedProxy : ProxyData Unit String Unit Sample where
  target :=
    { frozen with
      getOwnProperty := fun _ => pure (some ⟨false, true, true, false, .number 1, .undefined, .undefined⟩) }
  targetValue := .object
  handler := .object
  isRevoked := fun _ => false

theorem defineOwnProperty_throws_iff_readOnly :
    ∃ r : Descriptor Sample, r.writable = some false ∧
      ((∃ e, (proxy trustingEngine sealedProxy fun _ => .object).defineOwnProperty () r true () = some (.error e)) ↔
        MustThrow trustingEngine sealedProxy.target () () r) :=
  ⟨⟨none, some false, none, none, none, none, nofun⟩, rfl,
    (defineOwnProperty_throws_iff trustingEngine sealedProxy (fun _ => .object) _ true
      ⟨.trap "defineProperty", (), rfl, rfl⟩ rfl rfl rfl).mpr (.inr (.inr (.inr rfl)))⟩

/-- The property keeps its attributes and its value, which the descriptor repeats: it throws all the same. -/
theorem defineProperty_refuses_same :
    ∃ r : Descriptor Sample, r.value = some (.number 1) ∧ r.writable = some true ∧
      (∃ e, (proxy trustingEngine sealedProxy fun _ => .object).defineOwnProperty () r true () = some (.error e)) ∧
      ¬MustThrow trustingEngine sealedProxy.target () () r := by
  refine ⟨⟨none, some true, none, some (.number 1), none, none, nofun⟩, rfl, rfl, ⟨_, rfl⟩, ?_⟩
  rintro (⟨own, w2, e, owns, thrown⟩ | ⟨own, w2, owns, wrong⟩)
  · cases thrown
  cases owns
  apply wrong
  constructor <;> simp [Descriptor.hasAccessor]

end Proxy
