import Partikle.Map.Records

/-!
The hash table of a map. Each bucket holds, in the order of the records list, the
records that are not deleted and whose key hashes to it.
-/

namespace JsMap

open ListHead List

def firstNode : List RecId → RecordNode
  | [] => .records
  | r :: _ => .link r

@[simp] theorem firstNode_nil : firstNode [] = .records := rfl

@[simp] theorem firstNode_cons (r : RecId) (rest : List RecId) : firstNode (r :: rest) = .link r := rfl

variable {s s' : MapState} {recs before after large recs' : List RecId} {r : RecId} {i size fuel : Nat}
  {slack : Option Nat}

theorem Linked.next_head (linked : Linked s recs) : s.links.next .records = some (firstNode recs) := by
  rw [linked.list.next_head]
  cases recs <;> simp

theorem Linked.next_eq
    (linked : Linked s (before ++ r :: after)) : s.links.next (.link r) = some (firstNode after) := by
  have list := linked.list
  simp only [map_append, map_cons] at list
  rw [list.next_eq]
  cases after <;> simp

def bucketNodes (index : RecId → Nat) (hashed : List RecId) (i : Nat) : List HashNode :=
  (hashed.filter fun r => index r == i).map .hashLink

def Buckets (links : Links HashNode) (size : Nat) (index : RecId → Nat) (hashed : List RecId) : Prop :=
  ∀ i < size, IsList links (.bucket i) (bucketNodes index hashed i)

section Buckets

variable {links : Links HashNode} {index : RecId → Nat} {hashed : List RecId}

theorem bucketNodes_disjoint (index : RecId → Nat) (hashed : List RecId) {j : Nat} (different : i ≠ j) :
    List.Disjoint (HashNode.bucket i :: bucketNodes index hashed i)
      (HashNode.bucket j :: bucketNodes index hashed j) := by
  intro node first second
  simp only [bucketNodes, mem_cons, mem_map, mem_filter, beq_iff_eq] at first second
  rcases first with rfl | ⟨r, ⟨-, atI⟩, rfl⟩
  · rcases second with same | ⟨q, -, same⟩
    · exact different (HashNode.bucket.inj same)
    · cases same
  · rcases second with same | ⟨q, ⟨-, atJ⟩, same⟩
    · cases same
    · cases same
      exact different (atI.symm.trans atJ)

theorem hashLink_fresh (fresh : r ∉ hashed) (i : Nat) :
    HashNode.hashLink r ∉ HashNode.bucket i :: bucketNodes index hashed i := by
  intro member
  simp only [bucketNodes, mem_cons, reduceCtorEq, mem_map, mem_filter,
    HashNode.hashLink.injEq, exists_eq_right, false_or] at member
  exact fresh member.1

theorem Buckets.add (buckets : Buckets links size index hashed) (fresh : r ∉ hashed) (bound : index r < size) :
    Buckets (listAddTail (.hashLink r) (.bucket (index r)) links) size index (hashed ++ [r]) := by
  intro i small
  by_cases same : index r = i
  · subst same
    have added := (buckets _ small).addTail (hashLink_fresh fresh _)
    simpa [bucketNodes] using added
  · have framed := (buckets _ bound).addTail_frame (buckets i small) (hashLink_fresh fresh i)
      (bucketNodes_disjoint index hashed same)
    simpa [bucketNodes, same] using framed

theorem Buckets.del (buckets : Buckets links size index (before ++ r :: after)) (bound : index r < size) :
    Buckets (listDel (.hashLink r) links) size index (before ++ after) := by
  have own := buckets _ bound
  have shape : bucketNodes index (before ++ r :: after) (index r) =
      bucketNodes index before (index r) ++ HashNode.hashLink r :: bucketNodes index after (index r) := by
    simp [bucketNodes]
  intro i small
  by_cases same : index r = i
  · subst same
    rw [shape] at own
    simpa [bucketNodes] using own.del
  · have disjoint := bucketNodes_disjoint index (before ++ r :: after) same
    rw [shape] at own disjoint
    have framed := own.del_frame (buckets i small) disjoint
    simpa [bucketNodes, same] using framed

theorem Buckets.congr {other : RecId → Nat} (buckets : Buckets links size index hashed)
    (agree : ∀ r ∈ hashed, other r = index r) : Buckets links size other hashed := by
  intro i small
  have nodes : bucketNodes other hashed i = bucketNodes index hashed i := by
    unfold bucketNodes
    congr 1
    apply filter_congr
    intro r member
    rw [agree r member]
  rw [nodes]
  exact buckets i small

theorem initBuckets_buckets (links : Links HashNode) (size : Nat) (index : RecId → Nat) :
    Buckets (initBuckets size links) size index [] := by
  induction size with
  | zero => intro i bound; omega
  | succ size ih =>
    intro i bound
    have step : initBuckets (size + 1) links = initListHead (.bucket size) (initBuckets size links) := by
      simp [initBuckets, range_succ]
    rw [step]
    rcases eq_or_ne i size with rfl | last
    · exact initListHead_isList _ _
    · apply (ih i (by omega)).initListHead
      simp [bucketNodes]
      omega

end Buckets

theorem hashIndex_lt (key : JsValue) (positive : 0 < size) (small : size < 2 ^ 32) : hashIndex key size < size := by
  have mask : (BitVec.ofNat 32 size - 1).toNat = size - 1 := by
    rw [BitVec.toNat_sub_of_le]
    · simp only [BitVec.toNat_ofNat]
      rw [Nat.mod_eq_of_lt small]
      simp
    · rw [BitVec.le_def]
      simp only [BitVec.toNat_ofNat]
      rwa [Nat.mod_eq_of_lt small]
  have bound : hashIndex key size ≤ size - 1 := by
    rw [hashIndex, BitVec.toNat_and, mask]
    exact Nat.and_le_right
  omega

def MapState.indexAt (s : MapState) (size : Nat) (r : RecId) : Nat :=
  match s.record r with
  | some mr => hashIndex mr.key size
  | none => 0

structure Hashed (s : MapState) (hashed : List RecId) : Prop where
  table : s.hashTable = true
  positive : 0 < s.hashSize
  small : s.hashSize < 2 ^ 32
  buckets : Buckets s.hashLinks s.hashSize (s.indexAt s.hashSize) hashed

theorem Linked.setHashLinks (linked : Linked s recs)
    (links : Links HashNode) : Linked { s with hashLinks := links } recs :=
  { linked with }

theorem indexAt_of_content (same : s'.content r = s.content r) (size : Nat) : s'.indexAt size r = s.indexAt size r := by
  unfold MapState.content at same
  unfold MapState.indexAt
  cases first : s'.record r <;> cases second : s.record r <;> simp_all

theorem indexAt_lt (positive : 0 < size) (small : size < 2 ^ 32) (r : RecId) : s.indexAt size r < size := by
  unfold MapState.indexAt
  split
  · exact hashIndex_lt _ positive small
  · exact positive

theorem rehash_loop {visited todo : List RecId} (linked : Linked s (visited ++ todo)) (bound : todo.length < fuel)
    (positive : 0 < size) (small : size < 2 ^ 32)
    (buckets : Buckets s.hashLinks size (s.indexAt size) (visited.filter s.isLive)) :
    ∃ links, rehash size fuel (some (firstNode todo)) s = some { s with hashLinks := links } ∧
      Buckets links size (s.indexAt size) ((visited ++ todo).filter s.isLive) := by
  induction todo generalizing s visited fuel with
  | nil =>
    obtain _ | fuel := fuel
    · cases bound
    exact ⟨s.hashLinks, by simp [rehash], by simpa using buckets⟩
  | cons r todo ih =>
    obtain _ | fuel := fuel
    · cases bound
    obtain ⟨mr, found⟩ := (linked.allocated r).mp (by simp)
    have shorter : todo.length < fuel := by simpa using bound
    cases isEmpty : mr.empty with
    | true =>
      have dead : s.isLive r = false := by simp [MapState.isLive, found, isEmpty]
      have rest : Linked s ((visited ++ [r]) ++ todo) := by simpa using linked
      obtain ⟨links, looped, filled⟩ := ih rest shorter (by simpa [dead] using buckets)
      refine ⟨links, ?_, by simpa using filled⟩
      simp [rehash, found, isEmpty, linked.next_eq, looped]
    | false =>
      have live : s.isLive r = true := by simp [MapState.isLive, found, isEmpty]
      have fresh : r ∉ visited.filter s.isLive := by
        intro inside
        have unique := nodup_append.mp linked.nodup
        exact unique.2.2 r (mem_filter.mp inside).1 r (by simp) rfl
      have index : s.indexAt size r = hashIndex mr.key size := by simp [MapState.indexAt, found]
      have added := buckets.add fresh (indexAt_lt positive small r)
      have kept : visited.filter s.isLive ++ [r] = (visited ++ [r]).filter s.isLive := by simp [live]
      have step : rehash size (fuel + 1) (some (.link r)) s =
          rehash size fuel (some (firstNode todo)) (s.addToBucket size r mr.key) := by
        rw [← linked.next_eq]
        simp [rehash, found, isEmpty]
        rfl
      rw [firstNode_cons, step]
      have rest : Linked (s.addToBucket size r mr.key) ((visited ++ [r]) ++ todo) := by
        simpa [MapState.addToBucket] using linked.setHashLinks _
      rw [index, kept] at added
      obtain ⟨links, looped, filled⟩ := ih rest shorter added
      refine ⟨links, looped, ?_⟩
      rwa [append_assoc] at filled

/-- The new size of the table is not zero, so that it has a bucket for every hash. -/
def TableFits (slack : Option Nat) (s : MapState) : Prop :=
  newHashSize s ≠ 0 ∧ ∀ extra, slack = some extra → (newHashSize s + extra) % 2 ^ 32 ≠ 0

theorem mapHashResize_spec (linked : Linked s recs) (hashed : Hashed s (recs.filter s.isLive))
    (fits : TableFits slack s) (bound : recs.length < fuel) :
    ∃ s', mapHashResize fuel slack s = some s' ∧ Linked s' recs ∧ Hashed s' (recs.filter s.isLive) ∧
      s'.record = s.record ∧ s'.cursors = s.cursors ∧ s'.isSet = s.isSet ∧ s'.recordCount = s.recordCount := by
  unfold mapHashResize
  rw [if_neg fits.1]
  cases grown : slack with
  | none => exact ⟨s, rfl, linked, hashed, rfl, rfl, rfl, rfl⟩
  | some extra =>
    have positive := Nat.pos_of_ne_zero (fits.2 extra grown)
    have small : (newHashSize s + extra) % 2 ^ 32 < 2 ^ 32 := Nat.mod_lt _ (by decide)
    simp only
    generalize (newHashSize s + extra) % 2 ^ 32 = size at positive small ⊢
    have start : Linked { s with hashLinks := initBuckets size s.hashLinks } ([] ++ recs) :=
      linked.setHashLinks _
    obtain ⟨links, looped, filled⟩ := rehash_loop start bound positive small (initBuckets_buckets _ _ _)
    have first : s.links.next .records = some (firstNode recs) := linked.next_head
    refine ⟨{ s with
      hashLinks := links, hashSize := size, recordCountThreshold := size * 2 % 2 ^ 32 },
      ?_, ?_, ⟨hashed.table, positive, small, filled⟩, rfl, rfl, rfl, rfl⟩
    · rw [first, looped]
      rfl
    · exact { linked with }

section Insert

theorem Linked.not_mem_of_fresh (linked : Linked s recs) (fresh : s.record r = none) : r ∉ recs := by
  intro member
  obtain ⟨mr, found⟩ := (linked.allocated r).mp member
  simp [fresh] at found

theorem insertRecord_record_self (key : JsValue) :
    (s.insertRecord r key).record r = some ⟨1, false, key, .undefined⟩ := by
  simp [MapState.insertRecord, MapState.addToBucket, MapState.setRecord]

theorem insertRecord_record_of_ne (key : JsValue) {q : RecId} (different : q ≠ r) :
    (s.insertRecord r key).record q = s.record q := by
  simp [MapState.insertRecord, MapState.addToBucket, MapState.setRecord, Function.update_of_ne different]

theorem insertRecord_linked (key : JsValue) (linked : Linked s recs) (fresh : s.record r = none) :
    Linked (s.insertRecord r key) (recs ++ [r]) := by
  have outside := linked.not_mem_of_fresh fresh
  have unheld : s.holders r = 0 := by
    apply countP_eq_zero.mpr
    intro c member stands
    exact outside (linked.held c member r (by simpa using stands))
  refine ⟨?_, ?_, ?_, ?_, ?_, linked.idle⟩
  · have added : IsList (listAddTail (.link r) .records s.links) .records
        (recs.map .link ++ [.link r]) := linked.list.addTail (by simpa using outside)
    simpa [MapState.insertRecord, MapState.addToBucket, MapState.setRecord] using added
  · intro q
    rcases eq_or_ne q r with rfl | same
    · simp [insertRecord_record_self]
    · simp [insertRecord_record_of_ne key same, linked.allocated q, same]
  · intro q mr found
    rcases update_some found with ⟨rfl, rfl⟩ | ⟨same, found⟩
    · have held : (s.insertRecord q key).holders q = 0 := unheld
      simp [held]
    · exact linked.counted q mr found
  · intro q mr found
    rcases update_some found with ⟨rfl, rfl⟩ | ⟨same, found⟩
    · exact Int.one_pos
    · exact linked.positive q mr found
  · intro c member q stands
    exact mem_append_left _ (linked.held c member q stands)

theorem insertRecord_filter_isLive (key : JsValue) (outside : r ∉ recs) :
    (recs ++ [r]).filter (s.insertRecord r key).isLive = recs.filter s.isLive ++ [r] := by
  have old : recs.filter (s.insertRecord r key).isLive = recs.filter s.isLive := by
    apply filter_congr
    intro q member
    have different : q ≠ r := fun same => outside (same ▸ member)
    simp [MapState.isLive, insertRecord_record_of_ne key different]
  simp [old, MapState.isLive, insertRecord_record_self]

theorem insertRecord_hashed (key : JsValue) (hashed : Hashed s (recs.filter s.isLive))
    (outside : r ∉ recs) : Hashed (s.insertRecord r key) (recs.filter s.isLive ++ [r]) := by
  have fresh : r ∉ recs.filter s.isLive := fun member => outside (mem_filter.mp member).1
  have index : ∀ q, q ≠ r → (s.insertRecord r key).indexAt s.hashSize q = s.indexAt s.hashSize q := by
    intro q different
    simp [MapState.indexAt, insertRecord_record_of_ne key different]
  have own : (s.insertRecord r key).indexAt s.hashSize r = hashIndex key s.hashSize := by
    simp [MapState.indexAt, insertRecord_record_self]
  have moved : Buckets s.hashLinks s.hashSize ((s.insertRecord r key).indexAt s.hashSize) (recs.filter s.isLive) := by
    apply hashed.buckets.congr
    intro q member
    exact index q fun same => fresh (same ▸ member)
  have added := moved.add fresh (indexAt_lt hashed.positive hashed.small r)
  rw [own] at added
  exact ⟨hashed.table, hashed.positive, hashed.small, added⟩

theorem mapAddRecord_spec (key : JsValue) (linked : Linked s recs) (hashed : Hashed s (recs.filter s.isLive))
    (fresh : s.record r = none) (fits : s.recordCountThreshold ≤ (s.recordCount + 1) % 2 ^ 32 → TableFits slack s)
    (bound : recs.length + 1 < fuel) :
    ∃ s', mapAddRecord fuel key (some r) slack s = some (some r, s') ∧ Linked s' (recs ++ [r]) ∧
      Hashed s' ((recs ++ [r]).filter s'.isLive) ∧ s'.record = (s.insertRecord r key).record ∧
      s'.cursors = s.cursors ∧ s'.isSet = s.isSet := by
  have outside := linked.not_mem_of_fresh fresh
  have linked1 := insertRecord_linked key linked fresh
  have hashed1 := insertRecord_hashed key hashed outside
  rw [← insertRecord_filter_isLive key outside] at hashed1
  by_cases full : s.recordCountThreshold ≤ (s.recordCount + 1) % 2 ^ 32
  · obtain ⟨s2, resized, linked2, hashed2, records2, cursors2, isSet2, -⟩ :=
      mapHashResize_spec linked1 hashed1 (fits full) (by simpa using bound)
    have lives : s2.isLive = (s.insertRecord r key).isLive := by
      unfold MapState.isLive
      rw [records2]
    refine ⟨s2, ?_, linked2, lives ▸ hashed2, records2, cursors2, isSet2⟩
    have reached : (s.insertRecord r key).recordCount ≥ (s.insertRecord r key).recordCountThreshold := full
    simp only [mapAddRecord, if_pos reached, resized]
    rfl
  · refine ⟨s.insertRecord r key, ?_, linked1, hashed1, rfl, rfl, rfl⟩
    have below : ¬(s.insertRecord r key).recordCount ≥ (s.insertRecord r key).recordCountThreshold := full
    simp only [mapAddRecord, if_neg below]
    rfl

end Insert

def MapState.hasKey (s : MapState) (key : JsValue) (r : RecId) : Bool :=
  match s.record r with
  | some mr => !mr.empty && sameValueZero mr.key key
  | none => false

theorem findInBucket_loop (key : JsValue) (before todo : List RecId)
    (list : IsList s.hashLinks (.bucket i) ((before ++ todo).map .hashLink))
    (live : ∀ r ∈ todo, s.isLive r = true) (bound : todo.length < fuel) :
    findInBucket s key (.bucket i) fuel (some ((todo.map HashNode.hashLink ++ [HashNode.bucket i]).head (by simp))) =
      some (todo.find? (s.hasKey key)) := by
  induction todo generalizing before fuel with
  | nil =>
    obtain _ | fuel := fuel
    · cases bound
    simp [findInBucket]
  | cons r todo ih =>
    obtain _ | fuel := fuel
    · cases bound
    have alive := live r (by simp)
    unfold MapState.isLive at alive
    cases found : s.record r with
    | none => simp [found] at alive
    | some mr =>
      have notEmpty : mr.empty = false := by simpa [found] using alive
      by_cases same : sameValueZero mr.key key = true
      · simp [findInBucket, found, same, MapState.hasKey, notEmpty]
      · have rest : IsList s.hashLinks (.bucket i) (((before ++ [r]) ++ todo).map .hashLink) := by
          simpa using list
        have later := ih _ rest (fun q member => live q (.tail _ member)) (by simpa using bound)
        have next : s.hashLinks.next (.hashLink r) =
            some ((todo.map HashNode.hashLink ++ [HashNode.bucket i]).head (by simp)) := by
          simp only [map_append, map_cons] at list
          exact list.next_eq
        simp [findInBucket, found, same, MapState.hasKey, notEmpty, next, later]

theorem mapFindRecord_spec {key : JsValue} (hashed : Hashed s (recs.filter s.isLive))
    (normal : ∀ r mr, s.record r = some mr → Normalized mr.key) (normalized : Normalized key)
    (bound : recs.length < fuel) : mapFindRecord fuel s key = some (recs.find? (s.hasKey key)) := by
  have small := hashIndex_lt key hashed.positive hashed.small
  have list := hashed.buckets _ small
  generalize shape : hashIndex key s.hashSize = i at small list
  unfold bucketNodes at list
  have shorter : ((recs.filter s.isLive).filter fun r => s.indexAt s.hashSize r == i).length < fuel :=
    (Nat.le_trans (length_filter_le _ _) (length_filter_le _ _)).trans_lt bound
  have walked := findInBucket_loop key [] ((recs.filter s.isLive).filter fun r => s.indexAt s.hashSize r == i) list
    (fun r member => (mem_filter.mp (mem_filter.mp member).1).2) shorter
  have first := list.next_head
  simp only [mapFindRecord, hashed.table, ↓reduceIte, shape, first]
  rw [walked]
  congr 1
  rw [filter_filter, find?_filter]
  congr 1
  funext r
  unfold MapState.hasKey MapState.isLive MapState.indexAt
  cases found : s.record r with
  | none => simp
  | some mr =>
    cases same : sameValueZero mr.key key with
    | false => simp [same]
    | true =>
      have equal := mapHashKey_eq_of_same (normal r mr found) normalized same
      have index : hashIndex mr.key s.hashSize = i := by
        rw [← shape]
        simp [hashIndex, equal]
      simp [same, index]

theorem filter_of_sublist {keep : RecId → Bool} {small : List RecId} (sub : small.Sublist large) (unique : large.Nodup)
    (gone : ∀ r ∈ large, r ∉ small → keep r = false) : small.filter keep = large.filter keep := by
  induction sub with
  | slnil => rfl
  | cons r rest ih =>
    have parts := nodup_cons.mp unique
    have dropped : keep r = false := gone r (by simp) fun inside => parts.1 (rest.subset inside)
    rw [filter_cons_of_neg (by simp [dropped])]
    exact ih parts.2 fun q member => gone q (.tail _ member)
  | cons_cons r rest ih =>
    have parts := nodup_cons.mp unique
    have tail := ih parts.2 fun q member absent => gone q (.tail _ member) (by
      have different : q ≠ r := fun same => parts.1 (same ▸ member)
      simpa [different] using absent)
    simp [filter_cons, tail]

theorem Linked.isLive_of_not_mem (linked : Linked s recs) (absent : r ∉ recs) : s.isLive r = false := by
  unfold MapState.isLive
  cases found : s.record r with
  | none => rfl
  | some mr => exact absurd ((linked.allocated r).mpr ⟨mr, found⟩) absent

theorem Linked.filter_isLive (linked : Linked s recs) (sub : recs.Sublist large)
    (unique : large.Nodup) : recs.filter s.isLive = large.filter s.isLive :=
  filter_of_sublist sub unique fun _ _ absent => linked.isLive_of_not_mem absent

theorem Shrinks.filter_isLive (shrinks : Shrinks s s' recs recs')
    (unique : recs.Nodup) : recs'.filter s'.isLive = recs.filter s.isLive := by
  rw [shrinks.linked.filter_isLive shrinks.sub unique]
  apply filter_congr
  intro r member
  by_cases stays : r ∈ recs'
  · exact isLive_of_content (shrinks.data r stays)
  · rw [shrinks.linked.isLive_of_not_mem stays, shrinks.gone r member stays]

theorem Shrinks.hashed {hashed : List RecId} (shrinks : Shrinks s s' recs recs')
    (table : Hashed s hashed) (members : ∀ r ∈ hashed, r ∈ recs') : Hashed s' hashed := by
  refine ⟨by rw [shrinks.hashTable]; exact table.table, by rw [shrinks.hashSize]; exact table.positive,
    by rw [shrinks.hashSize]; exact table.small, ?_⟩
  rw [shrinks.hashLinks, shrinks.hashSize]
  apply table.buckets.congr
  intro r member
  exact indexAt_of_content (shrinks.data r (members r member)) _

end JsMap
