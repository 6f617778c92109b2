import Partikle.Date

/-!
`Date.parse`: the texts of `toISOString`, those of the other formats, and what is done with the fields of a text. A
string is read to its first zero byte.
-/

namespace Dates

def digitsOf (maxDigits : Nat) (sp : List Nat) : List Nat :=
  (sp.take maxDigits).takeWhile fun c => 0x30 ≤ c ∧ c ≤ 0x39

def stringGetDigits (minDigits maxDigits : Nat) (sp : List Nat) : Option (Int × List Nat) :=
  let digits := digitsOf maxDigits sp
  if digits.length < minDigits then none
  else some (digits.foldl (fun (v : Int) (c : Nat) => v * 10 + c - 0x30) 0, sp.drop digits.length)

def stringSkipChar (c : Nat) (sp : List Nat) : Option (List Nat) := if sp.headD 0 = c then some sp.tail else none

def stringGetMilliseconds (sp : List Nat) : Int × List Nat :=
  let digits := digitsOf 9 sp.tail
  if (sp.headD 0 = 0x2e ∨ sp.headD 0 = 0x2c) ∧ digits ≠ [] then
    ((digits.foldl (fun (ms, mul) c => (ms + (c - 0x30) * mul, mul / 10)) (0, 100)).1, sp.tail.drop digits.length)
  else (0, sp)

/-- Of more than four digits the last ones are dropped in pairs. -/
def dropPairs : Nat → Int → Nat × Int
  | n + 5, hh => dropPairs (n + 3) (hh / 100)
  | n, hh => (n, hh)

def stringGetTzoffset (strict : Bool) (sp : List Nat) : Option (Int × List Nat) := do
  let sgn := sp.headD 0
  if sgn = 0x2b ∨ sgn = 0x2d then
    let (hh, p) ← stringGetDigits 1 9 sp.tail
    let n := sp.tail.length - p.length
    if strict ∧ n ≠ 2 ∧ n ≠ 4 then none
    else
      let (n, hh) := dropPairs n hh
      let (hh, mm, p) ←
        if n > 2 then some (hh / 100, hh % 100, p)
        else
          match stringSkipChar 0x3a p with
          | none => some (hh, 0, p)
          | some p => (stringGetDigits 2 2 p).map fun (mm, p) => (hh, mm, p)
      if hh > 23 ∨ mm > 59 then none
      else
        let tz := hh * 60 + mm
        some (if sgn = 0x2b then tz else -tz, p)
  else if sgn = 0x5a then some (0, sp.tail)
  else none

/-- The end of a text in ISO format: the offset, or nothing. -/
def isoZone (fields : DateFields) (isLocal : Bool) (p : List Nat) : Option (DateFields × Bool) :=
  if p.headD 0 = 0 then some (fields, isLocal)
  else do
    let (tz, p) ← stringGetTzoffset true p
    if p.headD 0 = 0 then some ({ fields with timezone := tz }, false) else none

def isoYear (sp : List Nat) : Option (Int × List Nat) := do
  let sgn := sp.headD 0
  if sgn = 0x2d ∨ sgn = 0x2b then
    let (year, p) ← stringGetDigits 6 6 sp.tail
    if sgn = 0x2d then if year = 0 then none else some (-year, p) else some (year, p)
  else stringGetDigits 4 4 sp

def isoMonthDay (p : List Nat) : Option (Int × Int × List Nat) :=
  match stringSkipChar 0x2d p with
  | none => some (0, 1, p)
  | some p => do
    let (month, p) ← stringGetDigits 2 2 p
    if month < 1 then none
    else
      match stringSkipChar 0x2d p with
      | none => some (month - 1, 1, p)
      | some p => do
        let (date, p) ← stringGetDigits 2 2 p
        if date < 1 then none else some (month - 1, date, p)

def isoHourMinute (p : List Nat) : Option (Int × Int × List Nat) := do
  let (hours, p) ← stringGetDigits 2 2 p
  let p ← stringSkipChar 0x3a p
  let (minutes, p) ← stringGetDigits 2 2 p
  some (hours, minutes, p)

def jsDateParseIsostring (sp : List Nat) : Option (DateFields × Bool) := do
  let (year, p) ← isoYear sp
  let (month, date, p) ← isoMonthDay p
  match stringSkipChar 0x54 p with
  | none => isoZone ⟨year, month, date, 0, 0, 0, 0, 0, 0⟩ false p
  | some p =>
    match isoHourMinute p with
    | none => some (⟨year, month, date, 100, 0, 0, 0, 0, 0⟩, true)
    | some (hours, minutes, p) => do
      let (seconds, ms, p) ←
        match stringSkipChar 0x3a p with
        | none => some (0, 0, p)
        | some p => (stringGetDigits 2 2 p).map fun (seconds, p) => (seconds, stringGetMilliseconds p)
      isoZone ⟨year, month, date, hours, minutes, seconds, ms, 0, 0⟩ true p

section Other

def upperAscii (c : Nat) : Nat := if 0x61 ≤ c ∧ c ≤ 0x7a then c - 0x20 else c

def stringMatch (s : String) (sp : List Nat) : Option (List Nat) :=
  let name := s.toList.map Char.toNat
  if (sp.take name.length).map upperAscii = name.map upperAscii then some (sp.drop name.length) else none

def monthNames : List String := ["Jan", "Feb", "Mar", "Apr", "May", "Jun", "Jul", "Aug", "Sep", "Oct", "Nov", "Dec"]

def stringGetMonth (sp : List Nat) : Option (Int × List Nat) :=
  (monthNames.findIdx? fun name => (stringMatch name sp).isSome).map fun (n : Nat) => ((n : Int) + 1, sp.drop 3)

def jsTzabbr : List (String × Int) :=
  [("GMT", 0), ("UTC", 0), ("UT", 0), ("Z", 0), ("EDT", -4 * 60), ("EST", -5 * 60), ("CDT", -5 * 60), ("CST", -6 * 60),
    ("MDT", -6 * 60), ("MST", -7 * 60), ("PDT", -7 * 60), ("PST", -8 * 60), ("WET", 0), ("WEST", 60), ("CET", 60),
    ("CEST", 2 * 60), ("EET", 2 * 60), ("EEST", 3 * 60)]

def stringGetTzabbr (sp : List Nat) : Option (Int × List Nat) :=
  jsTzabbr.findSome? fun (name, offset) => (stringMatch name sp).map fun p => (offset, p)

def stringSkipSpaces (sp : List Nat) : List Nat := sp.dropWhile (· = 0x20)

def stringSkipSeparators (sp : List Nat) : List Nat := sp.dropWhile (· ∈ [0x2d, 0x2f, 0x2e, 0x2c])

def stringSkipUntil (stoplist : String) (sp : List Nat) : List Nat :=
  sp.dropWhile fun c => c ≠ 0 ∧ c ∉ stoplist.toList.map Char.toNat

/-- A parenthesized phrase, where `level` parentheses are open. -/
def skipPhrase (level : Int) : List Nat → Int × List Nat
  | [] => (level, [])
  | c :: p =>
    if c = 0 then (level, c :: p)
    else
      let level := level + (if c = 0x28 then 1 else 0) - (if c = 0x29 then 1 else 0)
      if level = 0 then (level, p) else skipPhrase level p

structure OtherState where
  fields : DateFields
  isLocal : Bool
  num : List Int
  hasYear : Bool
  hasMon : Bool
  hasTime : Bool

def OtherState.setYear (s : OtherState) (year : Int) : OtherState :=
  { s with fields := { s.fields with year := year }, hasYear := true }

def OtherState.setOffset (s : OtherState) (tz : Int) : OtherState :=
  { s with fields := { s.fields with timezone := tz }, isLocal := false }

def OtherState.setHours (s : OtherState) (hours : Int) : OtherState :=
  { s with fields := { s.fields with hours := hours } }

def fullYear (val : Int) : Int := val + (if val < 100 then 1900 else 0) + if val < 50 then 100 else 0

def otherSign (sp : List Nat) (s : OtherState) : Option (List Nat × OtherState) :=
  match (if s.hasTime then stringGetTzoffset false sp else none) with
  | some (tz, p) => some (p, s.setOffset tz)
  | none =>
    match stringGetDigits 1 9 sp.tail with
    | none => some (sp.tail, s)
    | some (val, p) =>
      if sp.headD 0 = 0x2d then if val = 0 then none else some (p, s.setYear (-val)) else some (p, s.setYear val)

def otherTime (hours : Int) (p : List Nat) (s : OtherState) : Option (List Nat × OtherState) := do
  let (minutes, p) ← stringGetDigits 1 2 p
  let (seconds, ms, p) ←
    match stringSkipChar 0x3a p with
    | none => some (s.fields.seconds, s.fields.ms, p)
    | some p => (stringGetDigits 1 2 p).map fun (seconds, p) =>
        let (ms, p') := stringGetMilliseconds p
        (seconds, if p'.length = p.length then s.fields.ms else ms, p')
  some (p, { s with
    fields := { s.fields with hours := hours, minutes := minutes, seconds := seconds, ms := ms }, hasTime := true })

def otherNumber (digits : Nat) (val : Int) (p : List Nat) (s : OtherState) : Option (List Nat × OtherState) :=
  match stringSkipChar 0x3a p with
  | some p => otherTime val p s
  | none =>
    if digits > 2 then some (p, s.setYear val)
    else if val < 1 ∨ val > 31 then some (p, s.setYear (fullYear val))
    else if s.num.length = 3 then none
    else some (p, { s with num := s.num ++ [val] })

def otherWord (sp : List Nat) (s : OtherState) : Option (List Nat × OtherState) :=
  if sp.headD 0 = 0x28 then
    let (level, p) := skipPhrase 0 sp
    if level > 0 then none else some (p, s)
  else if sp.headD 0 = 0x29 then none
  else if s.hasYear ∨ s.hasMon ∨ s.hasTime ∨ s.num ≠ [] then none
  else some (stringSkipUntil " -/(" sp, s)

/-- One round of the loop of `js_date_parse_otherstring`, at a character that is no space. -/
def otherRound (sp : List Nat) (s : OtherState) : Option (List Nat × OtherState) :=
  let separated := Option.map fun (r : List Nat × OtherState) => (stringSkipSeparators r.1, r.2)
  if sp.headD 0 = 0x2b ∨ sp.headD 0 = 0x2d then separated (otherSign sp s)
  else
    match stringGetDigits 1 9 sp with
    | some (val, p) => separated (otherNumber (sp.length - p.length) val p s)
    | none =>
      match stringGetMonth sp with
      | some (month, p) =>
        let s := { s with fields := { s.fields with month := month }, hasMon := true }
        separated (some (stringSkipUntil "0123456789 -/(" p, s))
      | none =>
        match if s.hasTime then stringMatch "PM" sp else none with
        | some p => some (p, if s.fields.hours < 12 then s.setHours (s.fields.hours + 12) else s)
        | none =>
          match if s.hasTime then stringMatch "AM" sp else none with
          | some p => some (p, if s.fields.hours = 12 then s.setHours (s.fields.hours - 12) else s)
          | none =>
            match stringGetTzabbr sp with
            | some (offset, p) => some (p, s.setOffset offset)
            | none => separated (otherWord sp s)

def otherDate (s : OtherState) : Option DateFields :=
  if s.num.length + s.hasYear.toNat + s.hasMon.toNat > 3 then none
  else
    let fields := match s.num with
      | [] => if s.hasYear then some s.fields else none
      | [a] => some (if s.hasMon then { s.fields with date := a } else { s.fields with month := a })
      | [a, b] => some
          (if s.hasMon ∧ ¬s.hasYear then { s.fields with year := fullYear b, date := a }
          else { s.fields with month := a, date := b })
      | [a, b, c] => some { s.fields with year := fullYear c, month := a, date := b }
      | _ => none
    fields.bind fun fields =>
      if fields.month < 1 ∨ fields.date < 1 then none else some { fields with month := fields.month - 1 }

/-- The offset is set with `isLocal` and nowhere else. -/
def OffsetSet (fields : DateFields) (isLocal : Bool) : Prop := isLocal = true → fields.timezone = 0

def OtherState.OffsetSet (s : OtherState) : Prop := Dates.OffsetSet s.fields s.isLocal

section Progress

variable {sp p : List Nat} {s s' : OtherState} {val : Int} {n m : Nat}

@[grind →]
theorem stringGetDigits_length (found : stringGetDigits n m sp = some (val, p)) : p.length + n ≤ sp.length := by
  have short : (digitsOf m sp).length ≤ (sp.take m).length := (List.takeWhile_prefix _).length_le
  rw [List.length_take] at short
  simp only [stringGetDigits] at found
  split at found <;> cases found
  rw [List.length_drop]
  omega

@[grind →]
theorem stringSkipChar_length {c : Nat} (found : stringSkipChar c sp = some p) : p.length ≤ sp.length := by
  unfold stringSkipChar at found
  split at found <;> cases found
  simp

@[grind →]
theorem stringMatch_length {name : String} (found : stringMatch name sp = some p) :
    p.length + name.toList.length ≤ sp.length := by
  simp only [stringMatch] at found
  split at found <;> cases found
  rename_i same
  have lengths := congrArg List.length same
  simp only [List.length_map, List.length_take] at lengths
  rw [List.length_drop, List.length_map]
  omega

@[grind →]
theorem stringGetTzoffset_length {strict : Bool} (found : stringGetTzoffset strict sp = some (val, p)) :
    p.length ≤ sp.tail.length := by
  simp only [stringGetTzoffset, Option.bind_eq_bind] at found
  split at found
  · obtain ⟨⟨hh, q⟩, digits, found⟩ := Option.bind_eq_some_iff.mp found
    split at found
    · cases found
    · split at found
      · simp only [Option.bind_some] at found
        grind
      · split at found
        · simp only [Option.bind_some] at found
          grind
        · obtain ⟨_, minutes, found⟩ := Option.bind_eq_some_iff.mp found
          obtain ⟨⟨mm, r⟩, digits', rfl⟩ := Option.map_eq_some_iff.mp minutes
          grind
  · split at found <;> cases found
    exact le_rfl

@[grind →]
theorem otherSign_spec (done : otherSign sp s = some (p, s')) :
    p.length ≤ sp.tail.length ∧ (s.OffsetSet → s'.OffsetSet) := by
  unfold otherSign OtherState.setYear OtherState.setOffset at done
  grind [OffsetSet, OtherState.OffsetSet]

theorem stringGetMilliseconds_length : (stringGetMilliseconds sp).2.length ≤ sp.length := by
  simp only [stringGetMilliseconds]
  split
  · simp only [List.length_drop, List.length_tail]
    omega
  · exact le_rfl

@[grind →]
theorem otherTime_spec (done : otherTime val sp s = some (p, s')) :
    p.length ≤ sp.length ∧ (s.OffsetSet → s'.OffsetSet) := by
  simp only [otherTime, Option.bind_eq_bind] at done
  obtain ⟨⟨minutes, q⟩, digits, done⟩ := Option.bind_eq_some_iff.mp done
  split at done
  · cases done
    exact ⟨by grind, fun set => set⟩
  · obtain ⟨_, seconds, done⟩ := Option.bind_eq_some_iff.mp done
    obtain ⟨⟨sec, r⟩, digits', rfl⟩ := Option.map_eq_some_iff.mp seconds
    cases done
    have : (stringGetMilliseconds r).2.length ≤ r.length := stringGetMilliseconds_length
    exact ⟨by grind, fun set => set⟩

@[grind →]
theorem otherNumber_spec (done : otherNumber n val sp s = some (p, s')) :
    p.length ≤ sp.length ∧ (s.OffsetSet → s'.OffsetSet) := by
  unfold otherNumber OtherState.setYear at done
  grind [OffsetSet, OtherState.OffsetSet]

@[grind →]
theorem stringGetMonth_length (found : stringGetMonth sp = some (val, p)) : p.length < sp.length := by
  obtain ⟨i, named, same⟩ := Option.map_eq_some_iff.mp found
  obtain ⟨inside, matched, -⟩ := List.findIdx?_eq_some_iff_getElem.mp named
  obtain ⟨q, matched⟩ := Option.isSome_iff_exists.mp matched
  cases same
  have names : ∀ name ∈ monthNames, 0 < name.toList.length := by decide
  have := stringMatch_length matched
  have := names _ (List.getElem_mem inside)
  simp only [List.length_drop]
  omega

@[grind →]
theorem stringGetTzabbr_length (found : stringGetTzabbr sp = some (val, p)) : p.length < sp.length := by
  obtain ⟨⟨name, offset⟩, named, found⟩ := List.exists_of_findSome?_eq_some found
  obtain ⟨q, found, same⟩ := Option.map_eq_some_iff.mp found
  cases same
  have names : ∀ entry ∈ jsTzabbr, 0 < entry.1.toList.length := by decide
  have := stringMatch_length found
  have : 0 < name.toList.length := names _ named
  omega

theorem skipPhrase_length (level : Int) : (skipPhrase level sp).2.length ≤ sp.length := by
  fun_induction skipPhrase level sp <;> grind

theorem stringSkipSeparators_length : (stringSkipSeparators sp).length ≤ sp.length :=
  (List.dropWhile_suffix _).length_le

theorem stringSkipUntil_length {stoplist : String} : (stringSkipUntil stoplist sp).length ≤ sp.length :=
  (List.dropWhile_suffix _).length_le

theorem otherWord_spec (at_char : sp.headD 0 ≠ 0) (no_space : sp.headD 0 ≠ 0x20) (no_minus : sp.headD 0 ≠ 0x2d)
    (done : otherWord sp s = some (p, s')) : (stringSkipSeparators p).length < sp.length ∧ s' = s := by
  obtain _ | ⟨c, q⟩ := sp
  · exact absurd rfl at_char
  rw [List.headD_cons] at at_char no_space no_minus
  have skipped := @stringSkipSeparators_length p
  by_cases opens : c = 0x28
  · -- the opening parenthesis itself is passed
    have phrase := @skipPhrase_length q 1
    grind [skipPhrase, otherWord]
  · have passed : (stringSkipUntil " -/(" q).length ≤ q.length := stringSkipUntil_length
    have passed' : (stringSkipSeparators q).length ≤ q.length := stringSkipSeparators_length
    have other : (c :: q).headD 0 ≠ 0x28 := opens
    rw [otherWord, if_neg other] at done
    split at done
    · cases done
    · split at done <;> cases done
      refine ⟨?_, rfl⟩
      by_cases stops : c = 0x2f
      · subst stops
        change (stringSkipSeparators q).length < q.length + 1
        omega
      · have word : stringSkipUntil " -/(" (c :: q) = stringSkipUntil " -/(" q := by
          simp [stringSkipUntil, at_char, no_space, no_minus, opens, stops]
        rw [word] at skipped ⊢
        rw [List.length_cons]
        omega

theorem otherRound_spec (at_char : sp.headD 0 ≠ 0) (no_space : sp.headD 0 ≠ 0x20)
    (done : otherRound sp s = some (p, s')) : p.length < sp.length ∧ (s.OffsetSet → s'.OffsetSet) := by
  have nonempty : sp.tail.length < sp.length := by cases sp <;> simp_all
  have separated {r : Option (List Nat × OtherState)}
      (found : r.map (fun r => (stringSkipSeparators r.1, r.2)) = some (p, s')) :
      ∃ q, r = some (q, s') ∧ stringSkipSeparators q = p := by
    obtain ⟨⟨q, s''⟩, rfl, same⟩ := Option.map_eq_some_iff.mp found
    cases same
    exact ⟨q, rfl, rfl⟩
  have skipped := @stringSkipSeparators_length
  simp only [otherRound, OtherState.setOffset, OtherState.setHours] at done
  split at done
  · grind
  · rename_i signless
    split at done
    · grind
    · split at done
      · grind [stringSkipUntil_length, OffsetSet, OtherState.OffsetSet]
      · split at done
        · grind [OffsetSet, OtherState.OffsetSet]
        · split at done
          · grind [OffsetSet, OtherState.OffsetSet]
          · split at done
            · grind [OffsetSet, OtherState.OffsetSet]
            · obtain ⟨q, word, rfl⟩ := separated done
              obtain ⟨passed, rfl⟩ := otherWord_spec at_char no_space (fun minus => signless (.inr minus)) word
              exact ⟨passed, id⟩

end Progress

theorem stringSkipSpaces_stops (sp : List Nat) : (stringSkipSpaces sp).headD 0 ≠ 0x20 := by
  have stops := List.head?_dropWhile_not (· = 0x20) sp
  unfold stringSkipSpaces
  grind

/-- The loop of `js_date_parse_otherstring`: every round passes a character. -/
def otherLoop (sp : List Nat) (s : OtherState) : Option OtherState :=
  if _ : (stringSkipSpaces sp).headD 0 = 0 then some s
  else
    match _ : otherRound (stringSkipSpaces sp) s with
    | none => none
    | some (p, s') => otherLoop p s'
termination_by sp.length
decreasing_by
  rename_i at_char done
  have passed := (otherRound_spec at_char (stringSkipSpaces_stops sp) done).1
  exact passed.trans_le (List.dropWhile_suffix _).length_le

def jsDateParseOtherstring (sp : List Nat) : Option (DateFields × Bool) := do
  let s ← otherLoop sp ⟨⟨2001, 1, 1, 0, 0, 0, 0, 0, 0⟩, true, [], false, false, false⟩
  let fields ← otherDate s
  some (fields, s.isLocal)

end Other

section Parse

variable (getTimezoneOffset : Int → Int) (text : List Nat)

/-- The fields of a text that is accepted, and whether they are in local time. -/
def acceptedFields : Option (DateFields × Bool) :=
  let buf := (text.take 127).map fun c => if c > 255 then if c = 0x2212 then 0x2d else 0x78 else c
  ((jsDateParseIsostring buf).or (jsDateParseOtherstring buf)).filter fun (fields, _) =>
    ¬(fields.month > 11 ∨ fields.date > 31 ∨ fields.hours > 24 ∨ fields.minutes > 59 ∨ fields.seconds > 59) ∧
      ¬(fields.hours = 24 ∧ (fields.minutes ≠ 0 ∨ fields.seconds ≠ 0 ∨ fields.ms ≠ 0))

/-- No result is NaN. -/
def jsDateParse : Option Int := do
  let (fields, isLocal) ← acceptedFields text
  (setDateFields getTimezoneOffset fields isLocal).map (· - fields.timezone * 60000)

end Parse

section Local

variable {sp p text : List Nat} {s s' : OtherState} {fields : DateFields} {isLocal : Bool} {r : DateFields × Bool}

theorem otherLoop_offsetSet (set : s.OffsetSet) (done : otherLoop sp s = some s') : s'.OffsetSet := by
  fun_induction otherLoop sp s with
  | case1 =>
    cases done
    exact set
  | case2 => cases done
  | case3 sp s at_char p s₁ round ih =>
    exact ih ((otherRound_spec at_char (stringSkipSpaces_stops sp) round).2 set) done

theorem otherDate_timezone (found : otherDate s = some fields) : fields.timezone = s.fields.timezone := by
  unfold otherDate at found
  grind

theorem isoZone_offsetSet (set : fields.timezone = 0) (found : isoZone fields isLocal p = some r) :
    OffsetSet r.1 r.2 := by
  unfold isoZone at found
  split at found
  · cases found
    exact fun _ => set
  · obtain ⟨⟨tz, q⟩, -, found⟩ := Option.bind_eq_some_iff.mp found
    grind [OffsetSet]

theorem jsDateParseIsostring_offsetSet (found : jsDateParseIsostring sp = some r) : OffsetSet r.1 r.2 := by
  simp only [jsDateParseIsostring, Option.bind_eq_bind] at found
  obtain ⟨⟨year, p⟩, -, found⟩ := Option.bind_eq_some_iff.mp found
  obtain ⟨⟨month, date, q⟩, -, found⟩ := Option.bind_eq_some_iff.mp found
  split at found
  · exact isoZone_offsetSet rfl found
  · split at found
    · cases found
      exact fun _ => rfl
    · split at found
      · exact isoZone_offsetSet rfl found
      · obtain ⟨_, -, found⟩ := Option.bind_eq_some_iff.mp found
        exact isoZone_offsetSet rfl found

theorem acceptedFields_offsetSet (accepted : acceptedFields text = some (fields, isLocal)) :
    OffsetSet fields isLocal := by
  obtain ⟨found, -⟩ := Option.filter_eq_some_iff.mp accepted
  obtain iso | ⟨-, other⟩ := Option.or_eq_some_iff.mp found
  · exact jsDateParseIsostring_offsetSet iso
  · simp only [jsDateParseOtherstring, Option.bind_eq_bind] at other
    obtain ⟨s, looped, other⟩ := Option.bind_eq_some_iff.mp other
    obtain ⟨_, dated, same⟩ := Option.bind_eq_some_iff.mp other
    cases same
    intro isLocal
    rw [otherDate_timezone dated]
    exact otherLoop_offsetSet (fun _ => rfl) looped isLocal

end Local

section Instant

variable (getTimezoneOffset : Int → Int)

/-- The time that a clock shows at the fields. -/
def clockTime (fields : DateFields) : Int :=
  let days := daysFromMonth (fields.year + fields.month / 12) (fields.month % 12).toNat + fields.date - 1
  days * 86400000 + (fields.hours * 3600000 + fields.minutes * 60000 + fields.seconds * 1000 + fields.ms)

def localTime (t : Int) : Int := t - getTimezoneOffset t * 60000

/-- The zone has this offset at a local time: at the first instant with that time or, where the clocks are put forward
over the time, at the last instant before. -/
def OffsetAt (time offset : Int) : Prop :=
  getTimezoneOffset (time + offset * 60000) = offset ∧
      (∀ u, localTime getTimezoneOffset u = time → time + offset * 60000 ≤ u) ∨
    (∀ u, localTime getTimezoneOffset u ≠ time) ∧
      ∃ u, localTime getTimezoneOffset u < time ∧ (∀ v, localTime getTimezoneOffset v < time → v ≤ u) ∧
        getTimezoneOffset u = offset

def Denotes (fields : DateFields) (isLocal : Bool) (t : Int) : Prop :=
  let time := clockTime fields
  if isLocal then ∃ offset, OffsetAt getTimezoneOffset time offset ∧ t = time + offset * 60000
  else t = time - fields.timezone * 60000

def InRange (t : Int) : Prop := t.natAbs ≤ 8640000000000000

def YearInRange (fields : DateFields) : Prop :=
  -271821 ≤ fields.year + fields.month / 12 ∧ fields.year + fields.month / 12 ≤ 275760

/-- A number is an instant in range that the fields denote, and with NaN they denote none. -/
def Conforms (fields : DateFields) (isLocal : Bool) : Option Int → Prop
  | some t => InRange t ∧ Denotes getTimezoneOffset fields isLocal t
  | none => ∀ t, Denotes getTimezoneOffset fields isLocal t → ¬InRange t

variable {getTimezoneOffset} {text : List Nat} {fields : DateFields} {isLocal : Bool}

variable (getTimezoneOffset) in
/-- The limits are applied to the time `tv`, and the offset of the text is subtracted from what is left. -/
theorem jsDateParse_cases (accepted : acceptedFields text = some (fields, isLocal)) :
    let time := clockTime fields
    let tv := if isLocal then time + getTimezoneOffset (max (-2 ^ 63) (min time (2 ^ 63 - 1))) * 60000 else time
    YearInRange fields ∧ InRange tv ∧ jsDateParse getTimezoneOffset text = some (tv - fields.timezone * 60000) ∨
      ¬(YearInRange fields ∧ InRange tv) ∧ jsDateParse getTimezoneOffset text = none := by
  intro time tv
  have month : (if fields.month.tmod 12 < 0 then fields.month.tmod 12 + 12 else fields.month.tmod 12) =
      fields.month % 12 := by
    have same := mathMod_eq (a := fields.month) (show (0 : Int) < 12 by decide)
    unfold mathMod at same
    grind
  have composed : setDateFields getTimezoneOffset fields isLocal =
      if fields.year + fields.month / 12 < -271821 ∨ fields.year + fields.month / 12 > 275760 then none
      else timeClip tv := by
    simp only [setDateFields, month]
    rfl
  have result : jsDateParse getTimezoneOffset text =
      (setDateFields getTimezoneOffset fields isLocal).map (· - fields.timezone * 60000) := by
    rw [jsDateParse, accepted]
    rfl
  rw [result, composed]
  unfold YearInRange InRange timeClip
  grind

/-- The zone of New York in March 2023: the clocks are put forward on the twelfth at seven o'clock UTC. -/
def newYork (t : Int) : Int := if t < 1678604400000 then 300 else 240

def marchMorning : List Nat := "2023-03-12T03:30:00".toList.map Char.toNat

def marchNoon : List Nat := "2023-03-12T12:00:00".toList.map Char.toNat

/-- The last instant there is, a minute later. -/
def lastMoment : List Nat := "+275760-09-13T00:00:00.000-00:01".toList.map Char.toNat

end Instant

end Dates
