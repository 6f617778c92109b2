import Partikle.Shape.Run

/-!
`hash_next` has 26 bits and nothing checks that the number of a property fits. The
property number `2^26 + 1` of an object cuts off the chain behind it, and the properties
there are not found any more.
-/

namespace Shapes

open HashChain List Option

variable {count i n : Nat} {props : Props} {pr : ShapeProperty}

section Sizes

theorem doubleUntil_le (newSize fuel hashSize : Nat) :
    doubleUntil newSize fuel hashSize ≤ max hashSize (2 * newSize) := by
  induction fuel generalizing hashSize with
  | zero => exact Nat.le_max_left _ _
  | succ fuel ih =>
    simp only [doubleUntil]
    split
    · have := ih (2 * hashSize)
      omega
    · exact Nat.le_max_left _ _

theorem halveWhile_le (newSize fuel hashSize : Nat) : halveWhile newSize fuel hashSize ≤ hashSize := by
  induction fuel generalizing hashSize with
  | zero => exact Nat.le_refl _
  | succ fuel ih =>
    simp only [halveWhile]
    split
    · have := ih (hashSize / 2)
      omega
    · exact Nat.le_refl _

theorem newPropSize_le {propSize : Nat} (grows : propSize ≤ count) (small : count ≤ maxProps + 1) :
    newPropSize count propSize ≤ 2 * maxProps := by
  have bound : count ≤ 2 ^ 26 + 1 := small
  have signed : (BitVec.ofNat 32 (propSize * 3)).toInt = ((propSize * 3 : Nat) : Int) := by
    rw [BitVec.toInt_ofNat', Int.bmod_eq_of_le] <;> omega
  unfold newPropSize maxProps
  rw [signed, Int.tdiv_eq_ediv_of_nonneg (Int.natCast_nonneg _)]
  omega

structure Bounded (props : Props) : Prop where
  chained : Chained props
  size : props.propSize ≤ 2 * maxProps
  hashSize : props.propHashMask + 1 ≤ 4 * maxProps

theorem resizedProps_bounded (bounded : Bounded props) (enough : props.prop.length ≤ count)
    (grows : props.propSize ≤ count) (small : count ≤ maxProps + 1) : Bounded (resizedProps count props) := by
  have newSize := newPropSize_le grows small
  have oldSize := bounded.hashSize
  refine ⟨resizedProps_chained bounded.chained enough, ?_, ?_⟩
  · rwa [resizedProps_size]
  · unfold resizedProps
    split
    · have bound : grownHashSize count props ≤ _ := doubleUntil_le _ _ _
      simp only
      omega
    · exact oldSize

theorem closed_bounded : Closed Bounded (· ≤ maxProps) (· ≤ maxProps) where
  one := by decide
  sized := id
  linked := fun bounded => bounded.chained.linked
  empty := by
    intro propSize small
    refine ⟨chained_emptyProps ⟨2, rfl⟩, ?_, ?_⟩
    · simp only [emptyProps, maxProps]
      omega
    · simp only [emptyProps, maxProps, JS_PROP_INITIAL_HASH_SIZE]
      omega
  resized := fun bounded enough grows small =>
    resizedProps_bounded bounded enough grows (Nat.le_succ_of_le small)
  appended := by
    intro props old atom flags oldBounded absent bounded entries live room small
    exact ⟨closed_chained.appended oldBounded.chained absent bounded.chained entries live room small,
      bounded.size, bounded.hashSize⟩
  removed := by
    intro props atom i lpr pr bounded live loop present
    refine ⟨closed_chained.removed bounded.chained live loop present, ?_, ?_⟩
    · rw [removed_size]
      exact bounded.size
    · cases lpr <;> exact bounded.hashSize
  flagged := by
    intro props props' i flags bounded changed
    obtain ⟨pr, -, size, mask, -, keeps⟩ := setFlags_of_eq changed
    exact ⟨keeps bounded.chained, size ▸ bounded.size, mask ▸ bounded.hashSize⟩
  compacted := by
    intro props bounded smaller
    refine ⟨compacted_chained bounded.chained, Nat.le_trans smaller bounded.size, ?_⟩
    have bound : shrunkHashSize props ≤ props.propHashMask + 1 := halveWhile_le _ _ _
    have old := bounded.hashSize
    simp only [compacted]
    omega

end Sizes

section Hidden

variable {atom other : BitVec 32} {flags : BitVec 6}

theorem head_of_last (chained : Chained props) (last : props.prop[props.prop.length - 1]? = some pr)
    (live : pr.atom ≠ JS_ATOM_NULL) : props.propHash (props.bucket pr.atom) = props.prop.length := by
  obtain ⟨nodes, follows, members⟩ := chained.chains.chains (props.bucket pr.atom) (and_mask_lt _ _)
  obtain ⟨nodes', follows', -, below⟩ :=
    follows_of_links chained.linked.links (chained.linked.heads (props.bucket pr.atom))
  have member : props.prop.length - 1 ∈ nodes :=
    (members _).mpr ⟨⟨pr, last, live⟩, by simp [bucketIn, last, Props.bucket]⟩
  rw [follows.unique follows'] at member
  have low := below _ member
  have high := chained.linked.heads (props.bucket pr.atom)
  omega

/-- The number of the last property does not fit into `hash_next`, so the property is cut
off when another one comes in front of it. -/
theorem appended_hides (chained : Chained props) (full : props.prop.length = maxProps)
    (last : props.prop[props.prop.length - 1]? = some pr) (live : pr.atom ≠ JS_ATOM_NULL)
    (collide : props.bucket other = props.bucket pr.atom) (different : other ≠ pr.atom) :
    findOwnProperty (appended other flags props) pr.atom = some none := by
  have head := head_of_last chained last live
  have cut : BitVec.ofNat 26 (props.propHash (props.bucket other)) = 0 := by
    rw [collide, head, full]
    rfl
  have newest : (appended other flags props).prop[props.prop.length]? = some ⟨0, flags, other⟩ := by
    simp [appended, cut]
  have start : (appended other flags props).propHash ((appended other flags props).bucket pr.atom) =
      props.prop.length + 1 := by
    have bucket : (appended other flags props).bucket pr.atom = props.bucket other := collide.symm
    rw [bucket]
    simp [appended]
  have length : (appended other flags props).prop.length = props.prop.length + 1 := by simp [appended]
  unfold findOwnProperty
  rw [start, length]
  simp only [findLoop, Nat.succ_ne_zero, if_false, Nat.add_sub_cancel, newest, bind_eq_bind,
    bind_some, different]
  rfl

end Hidden

section Memory

variable {V : Type} {P : Props → Prop} {h : Heap V}

theorem exists_bound (l : List Nat) : ∃ bound, ∀ p ∈ l, p < bound := by
  induction l with
  | nil => exact ⟨0, by simp⟩
  | cons first rest ih =>
    obtain ⟨bound, above⟩ := ih
    refine ⟨max (first + 1) bound, fun p member => ?_⟩
    rcases mem_cons.mp member with rfl | inside
    · omega
    · have := above p inside
      omega

theorem exists_ample (good : Good P h) : ∃ mem, Ample mem h := by
  obtain ⟨bound, above⟩ := exists_bound h.gcObjList
  have fresh : ∀ p : Nat, bound ≤ p → h.shape p = none := by
    intro p high
    cases found : h.shape p with
    | none => rfl
    | some sh =>
      have below := above p (good.listed p sh found)
      omega
  have different : bound ≠ bound + 1 := by omega
  exact ⟨memoryAt bound, rfl, rfl, bound, bound + 1, rfl, rfl, different, fresh _ (Nat.le_refl _),
    fresh _ (Nat.le_succ _)⟩

end Memory

section Fill

def indexAtom (i : Nat) : BitVec 32 := BitVec.ofNat 32 (2 ^ 31 + i)

theorem toNat_indexAtom (small : i < 2 ^ 31) : (indexAtom i).toNat = 2 ^ 31 + i := by
  unfold indexAtom
  rw [BitVec.toNat_ofNat, Nat.mod_eq_of_lt]
  omega

theorem indexAtom_ne_null (small : i < 2 ^ 31) : indexAtom i ≠ JS_ATOM_NULL := by
  intro null
  have value := toNat_indexAtom small
  rw [null, show JS_ATOM_NULL.toNat = 0 from rfl] at value
  omega

theorem indexAtom_inj {j : Nat} (smallI : i < 2 ^ 31) (smallJ : j < 2 ^ 31) (same : indexAtom i = indexAtom j) :
    i = j := by
  have values := congrArg BitVec.toNat same
  rw [toNat_indexAtom smallI, toNat_indexAtom smallJ] at values
  omega

def filledEntries (n : Nat) : List (BitVec 32 × BitVec 6) := (List.range n).map fun i => (indexAtom i, 7)

structure Filled (n : Nat) (ops : List (Op Nat)) (results : List Result) (heap : Heap Nat) (state : Maps Nat)
    (obj : Object Nat) (sh : Shape) : Prop where
  ran : run ops (emptyHeap Nat) = some (results, heap)
  followed : follow ops results (Maps.start Nat) = some state
  inv : Inv Bounded heap
  refines : Refines heap state
  site : At heap 0 obj sh
  entries : sh.entries = filledEntries n

theorem run_concat {V : Type} [Inhabited V] {ops : List (Op V)} {op : Op V} {h h1 h2 : Heap V} {results : List Result}
    {r : Result} (ran : run ops h = some (results, h1)) (called : step op h1 = some (r, h2)) :
    run (ops ++ [op]) h = some (results ++ [r], h2) := by
  induction ops generalizing h results with
  | nil =>
    cases ran
    simp [run, called]
  | cons first ops ih =>
    simp only [run, bind_eq_bind, bind_eq_some_iff] at ran
    obtain ⟨⟨r1, h3⟩, called1, ⟨rest, h4⟩, ran1, same⟩ := ran
    cases same
    simp [run, called1, ih ran1]

theorem follow_concat {V : Type} [Inhabited V] {ops : List (Op V)} {op : Op V} {state state1 : Maps V}
    {results : List Result} {r : Result}
    (followed : follow ops results state = some state1) (done : r = (op.spec state1).1) :
    follow (ops ++ [op]) (results ++ [r]) state = some (op.spec state1).2 := by
  induction ops generalizing state results with
  | nil =>
    cases results with
    | nil =>
      cases followed
      simp only [nil_append, follow]
      rw [if_neg (done ▸ spec_ne_exception op _), if_pos done]
    | cons _ _ => simp [follow] at followed
  | cons first ops ih =>
    cases results with
    | nil => simp [follow] at followed
    | cons r1 results =>
      simp only [follow, cons_append] at followed ⊢
      split
      · rename_i failed
        rw [if_pos failed] at followed
        exact ih followed
      · rename_i fine
        rw [if_neg fine] at followed
        split
        · rename_i agrees
          rw [if_pos agrees] at followed
          exact ih followed
        · rename_i differs
          simp [if_neg differs] at followed

theorem step_add {P : Props → Prop} {fits sizes : Nat → Prop} {V : Type} [Inhabited V] {h : Heap V} {o : Nat}
    {obj : Object V} {sh : Shape} {atom : BitVec 32} {flags : BitVec 6} {value : V} {mem : Memory} {state : Maps V}
    (closed : Closed P fits sizes) (inv : Inv P h) (refines : Refines h state) (site : At h o obj sh)
    (live : atom ≠ JS_ATOM_NULL) (small : fits (sh.prop.length + 1))
    (absent : findOwnProperty sh.toProps atom = some none) (missing : site.map.find atom = none)
    (ample : Ample mem h) :
    ∃ h' obj' sh', step (.add o atom flags value mem) h = some (.true, h') ∧ Inv P h' ∧ At h' o obj' sh' ∧
      Grown h sh.toProps atom flags sh'.toProps ∧ (Op.spec (.add o atom flags value mem) state).1 = .true ∧
      Refines h' (Op.spec (.add o atom flags value mem) state).2 ∧
      (Op.spec (.add o atom flags value mem) state).2.map o = some (site.map.insert atom flags value) := by
  obtain ⟨r, h', found, called, good', frame, search, -, none'⟩ :=
    defineOwn_spec closed inv.good site live small value mem
  rw [absent] at search
  cases search
  rcases none' rfl with ⟨-, -, excuse⟩ | ⟨rfl, shown, obj', sh', site', grown⟩
  · exact absurd ample excuse
  · have is := refines.map_at site
    have spec : Op.spec (.add o atom flags value mem) state =
        (.true, { state with maps := state.maps.set o (some (site.map.insert atom flags value)) }) := by
      simp [Op.spec, Maps.guard, if_neg live, Maps.on, is, missing]
    refine ⟨h', obj', sh', ?_, inv.frame good' frame (by simp), site', grown, ?_, ?_, ?_⟩
    · simp only [step, if_neg live, Heap.on, site.object]
      exact called
    · rw [spec]
    · rw [spec]
      exact refines.set frame site shown
    · rw [spec]
      simp [Maps.map, map_lt is]

section Filled

variable {k : Nat} {ops : List (Op Nat)} {results : List Result} {heap : Heap Nat} {state : Maps Nat}
  {obj : Object Nat} {sh : Shape} (filled : Filled n ops results heap state obj sh)

include filled

theorem Filled.absent (beyond : n ≤ k) (small : k < 2 ^ 31) : findOwnProperty sh.toProps (indexAtom k) = some none := by
  have chained := (filled.inv.good.props _ _ filled.site.shape).chained
  obtain ⟨found, search, missing, -⟩ := findOwnProperty_chained chained (indexAtom_ne_null small)
  have notThere : indexAtom k ∉ sh.liveAtoms := by
    intro member
    rw [liveAtoms_eq, filled.entries] at member
    obtain ⟨entry, inside, same⟩ := mem_map.mp (mem_filter.mp member).1
    obtain ⟨i, there, rfl⟩ := mem_map.mp inside
    have below := mem_range.mp there
    have := indexAtom_inj (by omega) small same
    omega
  rw [search, missing.mpr notThere]

theorem Filled.length : sh.prop.length = n := by
  rw [← entries_length, filled.entries]
  simp [filledEntries]

theorem Filled.map_find (beyond : n ≤ k) (small : k < 2 ^ 31) : filled.site.map.find (indexAtom k) = none := by
  have chained := (filled.inv.good.props _ _ filled.site.shape).chained
  obtain ⟨-, none'⟩ | ⟨_, _, is, -⟩ :=
    find_map chained filled.site (indexAtom_ne_null small) (filled.absent beyond small)
  · exact none'
  · cases is

end Filled

theorem exists_filled (small : n ≤ maxProps) :
    ∃ ops results heap state obj sh, Filled n ops results heap state obj sh := by
  induction n with
  | zero =>
    have inv : Inv Bounded (emptyHeap Nat) := inv_emptyHeap Bounded
    obtain ⟨mem, ample⟩ := exists_ample inv.good
    obtain ⟨r, heap, called, good, frame, outcome⟩ := jsNewObjectProto_spec closed_bounded inv.good 1 mem
    rcases outcome with ⟨-, -, excuse⟩ | ⟨rfl, longer, obj, sh, site, entries, isProto⟩
    · exact absurd ample excuse
    · have shown : Shows heap 0 [] 1 := ⟨obj, sh, site, by rw [entries]; rfl, isProto⟩
      have ran : run [.newObject 1 mem] (emptyHeap Nat) = some ([.true], heap) :=
        @run_concat Nat _ [] (.newObject 1 mem) _ _ _ [] .true rfl called
      exact ⟨[.newObject 1 mem], [.true], heap, _, obj, sh, ran, rfl, inv.frame good frame (by simp),
        refines_start.push frame longer shown, site, entries⟩
  | succ n ih =>
    obtain ⟨ops, results, heap, state, obj, sh, filled⟩ := ih (Nat.le_of_succ_le small)
    have bound : n < 2 ^ 31 := Nat.lt_trans (Nat.lt_of_succ_le small) (by decide)
    obtain ⟨mem, ample⟩ := exists_ample filled.inv.good
    obtain ⟨heap', obj', sh', called, inv', site', grown, done, refines', -⟩ :=
      step_add closed_bounded filled.inv filled.refines
        filled.site (indexAtom_ne_null bound) (by rwa [filled.length])
        (filled.absent (Nat.le_refl n) bound) (filled.map_find (Nat.le_refl n) bound) ample
    refine ⟨ops ++ [.add 0 (indexAtom n) 7 0 mem], results ++ [.true], heap', _, obj', sh',
      run_concat filled.ran called, follow_concat filled.followed done.symm, inv', refines', site', ?_⟩
    have linked := (filled.inv.good.props _ _ filled.site.shape).chained.linked
    rw [grown.entries linked, filled.entries]
    simp [filledEntries, range_succ]

theorem bucket_collides (bounded : Bounded props) (small : i < 2 ^ 30) :
    props.bucket (indexAtom (2 ^ 30 + i)) = props.bucket (indexAtom i) := by
  obtain ⟨k, power⟩ := bounded.chained.linked.sized
  have bound := bounded.hashSize
  rw [power, show 4 * maxProps = 2 ^ 28 from rfl] at bound
  have low : k ≤ 28 := (Nat.pow_le_pow_iff_right (by decide)).mp bound
  have mask : props.propHashMask = 2 ^ k - 1 := by omega
  unfold Props.bucket
  rw [mask, Nat.and_two_pow_sub_one_eq_mod, Nat.and_two_pow_sub_one_eq_mod, toNat_indexAtom (by omega),
    toNat_indexAtom (by omega), show 2 ^ 31 + (2 ^ 30 + i) = 2 ^ 31 + i + 2 ^ 30 by omega]
  obtain ⟨c, multiple⟩ : 2 ^ k ∣ 2 ^ 30 := Nat.pow_dvd_pow 2 (by omega)
  rw [multiple, Nat.add_mul_mod_self_left]

theorem last_filled (entries : props.entries = filledEntries (n + 1)) :
    ∃ pr, props.prop[props.prop.length - 1]? = some pr ∧ pr.atom = indexAtom n := by
  have length : props.prop.length = n + 1 := by
    rw [← entries_length, entries]
    simp [filledEntries]
  obtain ⟨pr, present⟩ := @exists_getElem? (props.prop.length - 1) _ props.prop (by omega)
  have entry := getElem?_entries present
  rw [entries, length, filledEntries] at entry
  simp only [Nat.add_sub_cancel, getElem?_map, getElem?_range (Nat.lt_succ_self n), map_some,
    some.injEq, Prod.mk.injEq] at entry
  exact ⟨pr, present, entry.1.symm⟩

/-- An object with `2^26` properties gets one more: it hides the one before it, which is in
the map but is not found. -/
theorem add_hides_property :
    ∃ (ops : List (Op Nat)) (results : List Result) (heap : Heap Nat) (state : Maps Nat) (map : OrderedMap Nat)
        (obj : Object Nat) (sh : Shape) (atom : BitVec 32), run ops (emptyHeap Nat) = some (results, heap) ∧
      follow ops results (Maps.start Nat) = some state ∧ state.map 0 = some map ∧ heap.object 0 = some obj ∧
      heap.shape obj.shape = some sh ∧ atom ≠ JS_ATOM_NULL ∧ map.find atom ≠ none ∧
      findOwnProperty sh.toProps atom = some none := by
  obtain ⟨last, isLast⟩ : ∃ last, maxProps = last + 1 := ⟨maxProps - 1, by decide⟩
  have smallLast : last < 2 ^ 30 := by
    have limit : maxProps < 2 ^ 30 := by decide
    omega
  obtain ⟨ops, results, heap, state, obj, sh, filled⟩ := exists_filled (Nat.le_refl maxProps)
  have bounded := filled.inv.good.props _ _ filled.site.shape
  have linked := bounded.chained.linked
  have length := filled.length
  have entries := filled.entries
  have beyond : maxProps ≤ 2 ^ 30 + last := by omega
  have smallNew : 2 ^ 30 + last < 2 ^ 31 := by omega
  obtain ⟨mem, ample⟩ := exists_ample filled.inv.good
  obtain ⟨heap', obj', sh', called, -, site', grown, done, -, map'⟩ :=
    @step_add Linked _ _ Nat _ heap 0 obj sh (indexAtom (2 ^ 30 + last)) 7 0 mem state closed_linked
      (filled.inv.mono fun _ bounded => bounded.chained.linked) filled.refines filled.site
      (indexAtom_ne_null smallNew) trivial (filled.absent beyond smallNew) (filled.map_find beyond smallNew) ample
  refine ⟨_, _, heap', _, _, obj', sh', indexAtom last, run_concat filled.ran called,
    follow_concat filled.followed done.symm, map', site'.object, site'.shape, indexAtom_ne_null (by omega), ?_, ?_⟩
  · -- the map still has the key
    rw [isLast] at entries
    obtain ⟨pr, present, isAtom⟩ := last_filled entries
    have entry := getElem?_entries present
    rw [isAtom] at entry
    have value := find_contentsFrom bounded.chained.entriesDistinct entry (indexAtom_ne_null (by omega)) obj.prop 0
    have found : filled.site.map.find (indexAtom last) = _ := value
    unfold OrderedMap.find at found ⊢
    obtain ⟨entry', isEntry, -⟩ := map_eq_some_iff.mp found
    rw [OrderedMap.insert, find?_append, isEntry]
    simp
  · rcases grown with ⟨base, isBase, -, same⟩ | ⟨q, other, there, longer, -⟩
    · have baseBounded : Bounded base ∧ base.entries = sh.entries := by
        rcases isBase with rfl | ⟨full, rfl⟩
        · exact ⟨bounded, rfl⟩
        · exact ⟨resizedProps_bounded bounded (Nat.le_succ _) (Nat.le_succ_of_le full) (by omega),
            resizedProps_entries _ linked⟩
      obtain ⟨baseBounded, baseEntries⟩ := baseBounded
      rw [entries, isLast] at baseEntries
      obtain ⟨pr, present, isAtom⟩ := last_filled baseEntries
      have full : base.prop.length = maxProps := by
        rw [← entries_length, baseEntries, isLast]
        simp [filledEntries]
      have collide := bucket_collides baseBounded smallLast
      rw [same, ← isAtom]
      apply appended_hides baseBounded.chained full present
      · rw [isAtom]
        exact indexAtom_ne_null (by omega)
      · rwa [isAtom]
      · intro equal
        rw [isAtom] at equal
        have := indexAtom_inj smallNew (by omega) equal
        omega
    · -- no shape of the table has that many properties
      have few := (filled.inv.good.props _ _ there).chained.small
      have many := congrArg List.length longer
      rw [entries_length, length_append, entries_length, length] at many
      simp only [length_singleton] at many
      omega

end Fill

end Shapes
