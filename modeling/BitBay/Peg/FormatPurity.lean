import BitBay.Peg.PreviousContents

/-!
# Texts of more than one format

What a text stands for when its bytes are not in the current format. A previous format that
accepts them keeps the version that the current one has read from the same bytes, and it
indexes outside the columns where its supply does. What the formats make of the bytes is said of
new objects.
-/
namespace BitBay.Codec.CPegData

open Wire Decode

variable (zlib : Zlib) (stack : Version → List UInt8)

/-- The peg data of a text are what one format alone makes of the bytes, and no member of them
was assigned by another one, or they are invalid. -/
def FormatPure (pegdata64 : CString) : Prop :=
  ∃ r, construct zlib stack pegdata64 = some r ∧
    (r.data.isValid = false ∨ ∃ v t, r.accepted = some v ∧
      unpackAlone zlib stack v (decodeBase64 pegdata64) = (.ok (), t) ∧ t.obj = r.data ∧
      ∀ m, r.origin m = none ∨ r.origin m = some v)

/-- Reading a text stays within the columns, and its peg data are valid if their level is. -/
def StaysInBounds (pegdata64 : CString) : Prop :=
  ∃ r, construct zlib stack pegdata64 = some r ∧
    (r.data.peglevel.isValid = true → r.data.isValid = true)

variable (v : Version) (pegdata : List UInt8)

/-- The bytes are not a text of a previous format: the members cannot be read or do not add up to
the columns, or its supply lies in the columns and does not fit them. -/
def Refuses : Prop :=
  ∀ pd, Reads zlib stack v pegdata pd → pd.peglevel.InColumns ∧ pd.fitsLevel = false

/-- The bytes are not a text of a previous format with a valid level. -/
def NothingValid : Prop :=
  ∀ pd, Reads zlib stack v pegdata pd →
    pd.peglevel.InColumns ∧ (pd.fitsLevel = true → pd.peglevel.isValid = false)

/-- The supply of a previous format lies in the columns, if the members add up to them. -/
def ReadsInColumns : Prop := ∀ pd, Reads zlib stack v pegdata pd → pd.peglevel.InColumns

/-- An attempt refuses the bytes, or takes an invalid level from them. -/
def GivesNothing (r : Except Failure Unit × Unpacking) : Prop :=
  r.1 = .error .refused ∨ r.1 = .ok () ∧ r.2.obj.peglevel.isValid = false

variable {zlib stack v pegdata} {pegdata64 : CString} {F : Set Member} {members : Unpacker Unit}
variable {s : Unpacking}

/-! ## Attempts -/

section Attempts

variable (hmembers : Within v F False members) (hsees : Sees zlib stack v members s pegdata)
include hmembers hsees

theorem refused_iff : (run (members >>= fun _ => checkPrevious) s).1 = .error .refused ↔
    Refuses zlib stack v pegdata := by
  obtain ⟨hrefused, hnone⟩ | ⟨pd, hreads, ⟨hcolumns, hrun⟩ | ⟨-, hfits, t, hrun, -⟩⟩ :=
    attempt_by_reads hmembers hsees
  · exact iff_of_true hrefused hnone
  · rw [hrun]
    exact iff_of_false (by decide) fun h => hcolumns (h pd hreads).1
  · rw [hrun]
    refine iff_of_false nofun fun h => ?_
    rw [(h pd hreads).2] at hfits
    cases hfits

theorem defined_iff : (run (members >>= fun _ => checkPrevious) s).1 ≠ .error .undefined ↔
    ReadsInColumns zlib stack v pegdata := by
  obtain ⟨hrefused, hnone⟩ | ⟨pd, hreads, ⟨hcolumns, hrun⟩ | ⟨hcolumns, -, t, hrun, -⟩⟩ :=
    attempt_by_reads hmembers hsees
  · rw [hrefused]
    exact iff_of_true (by decide) fun pd hreads => (hnone pd hreads).1
  · rw [hrun]
    exact iff_of_false (fun h => h rfl) fun h => hcolumns (h pd hreads)
  · rw [hrun]
    refine iff_of_true nofun fun pd' hreads' => ?_
    rwa [← hreads.unique hreads']

theorem givesNothing_iff : GivesNothing (run (members >>= fun _ => checkPrevious) s) ↔
    NothingValid zlib stack v pegdata := by
  obtain ⟨hrefused, hnone⟩ | ⟨pd, hreads, ⟨hcolumns, hrun⟩ | ⟨hcolumns, hfits, t, hrun, hlevel⟩⟩ :=
    attempt_by_reads hmembers hsees
  · refine iff_of_true (.inl hrefused) fun pd hreads => ?_
    obtain ⟨hcolumns, hfits⟩ := hnone pd hreads
    refine ⟨hcolumns, fun h => ?_⟩
    rw [hfits] at h
    cases h
  · rw [GivesNothing, hrun]
    exact iff_of_false (by rintro (h | ⟨h, -⟩) <;> cases h) fun h => hcolumns (h pd hreads).1
  · rw [GivesNothing, hrun, hlevel]
    constructor
    · rintro (h | ⟨-, hinvalid⟩) pd' hreads'
      · cases h
      · rw [← hreads.unique hreads']
        exact ⟨hcolumns, fun _ => hinvalid⟩
    · intro h
      exact .inr ⟨rfl, (h pd hreads).2 hfits⟩

end Attempts

/-- An attempt accepts the bytes, refuses them or indexes outside the columns. -/
theorem attempt_cases (r : Except Failure Unit × Unpacking) :
    (∃ t, r = (.ok (), t)) ∨ (∃ t, r = (.error .refused, t)) ∨ ∃ t, r = (.error .undefined, t) := by
  obtain ⟨x, t⟩ := r
  cases x with
  | ok a => exact .inl ⟨t, rfl⟩
  | error e =>
    cases e with
    | refused => exact .inr (.inl ⟨t, rfl⟩)
    | undefined => exact .inr (.inr ⟨t, rfl⟩)

theorem attempt_eq {r : Except Failure Unit × Unpacking} {x : Except Failure Unit} (h : r.1 = x) :
    r = (x, r.2) := Prod.ext h rfl

theorem construct_nil : construct zlib stack [] =
    some ⟨{ peglevel := { nBuffer := 0, nSupply := 0, nSupplyNext := 0, nSupplyNextNext := 0 } },
      fun _ => none, none⟩ := rfl

/-- The constructor by its attempts. -/
theorem construct_eq (h : pegdata64 ≠ []) : construct zlib stack pegdata64 =
    outcome .current (unpackAlone zlib stack .current (decodeBase64 pegdata64)) fun _ =>
    outcome .second (secondAttempt zlib stack (decodeBase64 pegdata64)) fun _ =>
    outcome .first (thirdAttempt zlib stack (decodeBase64 pegdata64)) fun s =>
    some ⟨{ s.obj with peglevel := {} }, s.origin, none⟩ := if_neg h

/-- A level that indicates invalid peg data. -/
theorem isValid_of_refused (pd : CPegData) : { pd with peglevel := {} }.isValid = false := by
  have hlevel : ({} : CPegLevel).isValid = false := by decide
  rw [isValid_eq]
  simp [hlevel]

/-- The version of the current format is still there after the second attempt. -/
theorem origin_secondAttempt {pegdata : List UInt8} (h : 8 ≤ pegdata.length) :
    (secondAttempt zlib stack pegdata).2.origin .nVersion = some .current := by
  rw [secondAttempt, within_unpack2.origin_of_notMem (by simp [previousMembers])]
  exact origin_nVersion_current h

theorem origin_thirdAttempt {pegdata : List UInt8} (h : 8 ≤ pegdata.length) :
    (thirdAttempt zlib stack pegdata).2.origin .nVersion = some .current := by
  rw [thirdAttempt, within_unpack1.origin_of_notMem (by simp [previousMembers])]
  exact origin_secondAttempt h

/-- The data of a previous format are pure where their level is invalid. -/
theorem pure_previous_iff {r : Decoded} (hc : construct zlib stack pegdata64 = some r)
    (haccepted : r.accepted = some v) (hv : v ≠ .current)
    (horigin : r.origin .nVersion = some .current)
    (hvalid : r.data.peglevel.isValid = true → r.data.isValid = true) :
    FormatPure zlib stack pegdata64 ↔ r.data.peglevel.isValid = false := by
  constructor
  · rintro ⟨r', hr', hpure⟩
    rw [hc] at hr'
    cases hr'
    obtain hinvalid | ⟨w, t, hw, -, -, hm⟩ := hpure
    · rw [Bool.eq_false_iff]
      intro hlevel
      rw [hvalid hlevel] at hinvalid
      cases hinvalid
    · rw [haccepted] at hw
      cases hw
      obtain hnone | hsome := hm .nVersion
      · rw [horigin] at hnone
        cases hnone
      · rw [horigin] at hsome
        exact (hv (Option.some.inj hsome).symm).elim
  · intro hlevel
    refine ⟨r, hc, .inl ?_⟩
    rw [isValid_eq, hlevel, Bool.false_and]

/-- The outcome of a text that the current format refuses. -/
theorem construct_of_refused {t : Unpacking} (htext : pegdata64 ≠ [])
    (h : unpackAlone zlib stack .current (decodeBase64 pegdata64) = (.error .refused, t)) :
    construct zlib stack pegdata64 =
      outcome .second (secondAttempt zlib stack (decodeBase64 pegdata64)) fun _ =>
      outcome .first (thirdAttempt zlib stack (decodeBase64 pegdata64)) fun s =>
      some ⟨{ s.obj with peglevel := {} }, s.origin, none⟩ := by
  rw [construct_eq htext, h]
  rfl

/-- The current format does not index outside the columns. -/
theorem current_defined {pegdata : List UInt8} :
    (unpackAlone zlib stack .current pegdata).1 ≠ .error .undefined :=
  fun h => within_unpackInto.defined _ h

theorem secondAttempt_valid {pegdata : List UInt8} {t : Unpacking}
    (h : secondAttempt zlib stack pegdata = (.ok (), t)) (hlevel : t.obj.peglevel.isValid = true) :
    t.obj.isValid = true := previous_valid h hlevel

theorem thirdAttempt_valid {pegdata : List UInt8} {t : Unpacking}
    (h : thirdAttempt zlib stack pegdata = (.ok (), t)) (hlevel : t.obj.peglevel.isValid = true) :
    t.obj.isValid = true := previous_valid h hlevel

/-- What the current format accepts is pure. -/
theorem formatPure_of_current {t : Unpacking} (htext : pegdata64 ≠ [])
    (h : unpackAlone zlib stack .current (decodeBase64 pegdata64) = (.ok (), t)) :
    FormatPure zlib stack pegdata64 := by
  refine ⟨⟨t.obj, t.origin, some .current⟩, ?_, .inr ⟨.current, t, rfl, h, rfl, fun m => ?_⟩⟩
  · rw [construct_eq htext, h]
    rfl
  · have hfresh : (unpackAlone zlib stack .current (decodeBase64 pegdata64)).2.origin m = none ∨
        (unpackAlone zlib stack .current (decodeBase64 pegdata64)).2.origin m = some .current :=
      within_unpackInto.origin_fresh (fun _ => rfl) m
    rwa [h] at hfresh

/-- What the second format accepts is pure where its level is invalid. -/
theorem formatPure_second_iff {t u : Unpacking} (htext : pegdata64 ≠ [])
    (hcurrent : unpackAlone zlib stack .current (decodeBase64 pegdata64) = (.error .refused, u))
    (h : secondAttempt zlib stack (decodeBase64 pegdata64) = (.ok (), t)) :
    FormatPure zlib stack pegdata64 ↔ t.obj.peglevel.isValid = false := by
  have hc : construct zlib stack pegdata64 = some ⟨t.obj, t.origin, some .second⟩ := by
    rw [construct_of_refused htext hcurrent, h]
    rfl
  have horigin : (secondAttempt zlib stack (decodeBase64 pegdata64)).2.origin .nVersion =
      some .current := origin_secondAttempt (length_of_unpack2 h)
  rw [h] at horigin
  have hpure := pure_previous_iff hc rfl (by decide) horigin (secondAttempt_valid h)
  exact hpure

/-- What the first format accepts is pure where its level is invalid. -/
theorem formatPure_first_iff {t u w : Unpacking} (htext : pegdata64 ≠ [])
    (hcurrent : unpackAlone zlib stack .current (decodeBase64 pegdata64) = (.error .refused, u))
    (hsecond : secondAttempt zlib stack (decodeBase64 pegdata64) = (.error .refused, w))
    (h : thirdAttempt zlib stack (decodeBase64 pegdata64) = (.ok (), t)) :
    FormatPure zlib stack pegdata64 ↔ t.obj.peglevel.isValid = false := by
  have hc : construct zlib stack pegdata64 = some ⟨t.obj, t.origin, some .first⟩ := by
    rw [construct_of_refused htext hcurrent, hsecond, h]
    rfl
  have horigin : (thirdAttempt zlib stack (decodeBase64 pegdata64)).2.origin .nVersion =
      some .current := origin_thirdAttempt (length_of_unpack1 h)
  rw [h] at horigin
  have hpure := pure_previous_iff hc rfl (by decide) horigin (thirdAttempt_valid h)
  exact hpure

/-- What no format accepts is invalid. -/
theorem formatPure_of_refused {t u w : Unpacking} (htext : pegdata64 ≠ [])
    (hcurrent : unpackAlone zlib stack .current (decodeBase64 pegdata64) = (.error .refused, t))
    (hsecond : secondAttempt zlib stack (decodeBase64 pegdata64) = (.error .refused, u))
    (hfirst : thirdAttempt zlib stack (decodeBase64 pegdata64) = (.error .refused, w)) :
    FormatPure zlib stack pegdata64 := by
  have hc : construct zlib stack pegdata64 =
      some ⟨{ w.obj with peglevel := {} }, w.origin, none⟩ := by
    rw [construct_of_refused htext hcurrent, hsecond, hfirst]
    rfl
  exact ⟨_, hc, .inl (isValid_of_refused w.obj)⟩

/-- Without peg data there is nothing pure. -/
theorem not_formatPure_of_none (h : construct zlib stack pegdata64 = none) :
    ¬ FormatPure zlib stack pegdata64 := by
  rintro ⟨r, hr, -⟩
  rw [h] at hr
  cases hr

/-- The empty text gives zeros, which no format makes of it. -/
theorem not_formatPure_nil : ¬ FormatPure zlib stack [] := by
  rintro ⟨r, hr, hpure⟩
  cases hr
  obtain hinvalid | ⟨v, t, hv, -⟩ := hpure
  · revert hinvalid
    decide +kernel
  · cases hv

theorem formatPure_iff_attempts : FormatPure zlib stack pegdata64 ↔
    pegdata64 ≠ [] ∧ ((unpackAlone zlib stack .current (decodeBase64 pegdata64)).1 = .ok () ∨
      GivesNothing (secondAttempt zlib stack (decodeBase64 pegdata64)) ∧
        ((secondAttempt zlib stack (decodeBase64 pegdata64)).1 = .error .refused →
          GivesNothing (thirdAttempt zlib stack (decodeBase64 pegdata64)))) := by
  by_cases htext : pegdata64 = []
  · subst htext
    simp [not_formatPure_nil]
  obtain ⟨t, hcurrent⟩ | ⟨t, hcurrent⟩ | ⟨t, hcurrent⟩ :=
    attempt_cases (unpackAlone zlib stack .current (decodeBase64 pegdata64))
  · simp [htext, hcurrent, formatPure_of_current htext hcurrent]
  · have hc := construct_of_refused htext hcurrent
    obtain ⟨u, hsecond⟩ | ⟨u, hsecond⟩ | ⟨u, hsecond⟩ :=
      attempt_cases (secondAttempt zlib stack (decodeBase64 pegdata64))
    · simp [htext, hcurrent, hsecond, formatPure_second_iff htext hcurrent hsecond, GivesNothing]
    · obtain ⟨w, hfirst⟩ | ⟨w, hfirst⟩ | ⟨w, hfirst⟩ :=
        attempt_cases (thirdAttempt zlib stack (decodeBase64 pegdata64))
      · simp [htext, hcurrent, hsecond, hfirst,
          formatPure_first_iff htext hcurrent hsecond hfirst, GivesNothing]
      · have hpure := formatPure_of_refused htext hcurrent hsecond hfirst
        simp [htext, hcurrent, hsecond, hfirst, hpure, GivesNothing]
      · have hnone : construct zlib stack pegdata64 = none := by
          rw [hc, hsecond, hfirst]
          rfl
        simp [htext, hcurrent, hsecond, hfirst, not_formatPure_of_none hnone, GivesNothing]
    · have hnone : construct zlib stack pegdata64 = none := by
        rw [hc, hsecond]
        rfl
      simp [htext, hcurrent, hsecond, not_formatPure_of_none hnone, GivesNothing]
  · exact (current_defined (by rw [hcurrent])).elim

/-- Peg data from a text are what one format alone makes of the bytes, or invalid, exactly where
the current format accepts the bytes or they are no text of a previous format with a valid level.
The first format is asked if the bytes are not a text of the second one. -/
theorem formatPure_iff : FormatPure zlib stack pegdata64 ↔
    pegdata64 ≠ [] ∧ ((unpackAlone zlib stack .current (decodeBase64 pegdata64)).1 = .ok () ∨
      NothingValid zlib stack .second (decodeBase64 pegdata64) ∧
        (Refuses zlib stack .second (decodeBase64 pegdata64) →
          NothingValid zlib stack .first (decodeBase64 pegdata64))) := by
  rw [← givesNothing_iff within_unpackMembers2 sees_secondAttempt,
    ← refused_iff within_unpackMembers2 sees_secondAttempt,
    ← givesNothing_iff within_unpackMembers1 sees_thirdAttempt]
  exact formatPure_iff_attempts

/-! ## Columns -/

/-- Peg data from a text are valid if their level is. -/
theorem construct_valid {r : Decoded} (h : construct zlib stack pegdata64 = some r)
    (hlevel : r.data.peglevel.isValid = true) : r.data.isValid = true := by
  by_cases htext : pegdata64 = []
  · subst htext
    cases h
    decide +kernel
  obtain ⟨t, hcurrent⟩ | ⟨t, hcurrent⟩ | ⟨t, hcurrent⟩ :=
    attempt_cases (unpackAlone zlib stack .current (decodeBase64 pegdata64))
  · rw [construct_eq htext, hcurrent] at h
    cases h
    exact current_valid hcurrent
  · rw [construct_of_refused htext hcurrent] at h
    obtain ⟨u, hsecond⟩ | ⟨u, hsecond⟩ | ⟨u, hsecond⟩ :=
      attempt_cases (secondAttempt zlib stack (decodeBase64 pegdata64))
    · rw [hsecond] at h
      cases h
      exact secondAttempt_valid hsecond hlevel
    · rw [hsecond] at h
      obtain ⟨w, hfirst⟩ | ⟨w, hfirst⟩ | ⟨w, hfirst⟩ :=
        attempt_cases (thirdAttempt zlib stack (decodeBase64 pegdata64))
      · rw [hfirst] at h
        cases h
        exact thirdAttempt_valid hfirst hlevel
      · rw [hfirst] at h
        cases h
        cases hlevel
      · rw [hfirst] at h
        cases h
    · rw [hsecond] at h
      cases h
  · exact (current_defined (by rw [hcurrent])).elim

theorem staysInBounds_iff_isSome :
    StaysInBounds zlib stack pegdata64 ↔ (construct zlib stack pegdata64).isSome = true := by
  rw [Option.isSome_iff_exists]
  constructor
  · rintro ⟨r, hr, -⟩
    exact ⟨r, hr⟩
  · rintro ⟨r, hr⟩
    exact ⟨r, hr, construct_valid hr⟩

theorem staysInBounds_iff_attempts : StaysInBounds zlib stack pegdata64 ↔
    pegdata64 = [] ∨ (unpackAlone zlib stack .current (decodeBase64 pegdata64)).1 = .ok () ∨
      (secondAttempt zlib stack (decodeBase64 pegdata64)).1 ≠ .error .undefined ∧
        ((secondAttempt zlib stack (decodeBase64 pegdata64)).1 = .error .refused →
          (thirdAttempt zlib stack (decodeBase64 pegdata64)).1 ≠ .error .undefined) := by
  rw [staysInBounds_iff_isSome]
  by_cases htext : pegdata64 = []
  · subst htext
    simp [construct_nil]
  obtain ⟨t, hcurrent⟩ | ⟨t, hcurrent⟩ | ⟨t, hcurrent⟩ :=
    attempt_cases (unpackAlone zlib stack .current (decodeBase64 pegdata64))
  · simp [construct_eq htext, hcurrent, outcome]
  · rw [construct_of_refused htext hcurrent]
    obtain ⟨u, hsecond⟩ | ⟨u, hsecond⟩ | ⟨u, hsecond⟩ :=
      attempt_cases (secondAttempt zlib stack (decodeBase64 pegdata64))
    · simp [hcurrent, hsecond, outcome]
    · obtain ⟨w, hfirst⟩ | ⟨w, hfirst⟩ | ⟨w, hfirst⟩ :=
        attempt_cases (thirdAttempt zlib stack (decodeBase64 pegdata64))
      · simp [hcurrent, hsecond, hfirst, outcome]
      · simp [hcurrent, hsecond, hfirst, outcome]
      · simp [htext, hcurrent, hsecond, hfirst, outcome]
    · simp [htext, hcurrent, hsecond, outcome]
  · exact (current_defined (by rw [hcurrent])).elim

/-- Peg data from a text are read within the columns, and are valid if their level is, exactly
where the supplies that the previous formats read lie in the columns. The first format reads them
if the bytes are not a text of the second one. -/
theorem staysInBounds_iff : StaysInBounds zlib stack pegdata64 ↔
    pegdata64 = [] ∨ (unpackAlone zlib stack .current (decodeBase64 pegdata64)).1 = .ok () ∨
      ReadsInColumns zlib stack .second (decodeBase64 pegdata64) ∧
        (Refuses zlib stack .second (decodeBase64 pegdata64) →
          ReadsInColumns zlib stack .first (decodeBase64 pegdata64)) := by
  rw [← defined_iff within_unpackMembers2 sees_secondAttempt,
    ← refused_iff within_unpackMembers2 sees_secondAttempt,
    ← defined_iff within_unpackMembers1 sees_thirdAttempt]
  exact staysInBounds_iff_attempts

/-- There are no peg data where the second format indexes outside the columns. -/
theorem construct_of_undefined (htext : pegdata64 ≠ [])
    (hcurrent : (unpackAlone zlib stack .current (decodeBase64 pegdata64)).1 = .error .refused)
    (hsecond : (secondAttempt zlib stack (decodeBase64 pegdata64)).1 = .error .undefined) :
    construct zlib stack pegdata64 = none := by
  rw [construct_of_refused htext (attempt_eq hcurrent), attempt_eq hsecond]
  rfl

/-! ## Samples -/

/-- A text of the second format with a value of zero and this supply. -/
def secondFormatText (nSupply : Int16) : CString :=
  encodeBase64 ([1, 0, 1, 0] ++ List.replicate 33 0 ++ Wire.int16.write nSupply ++ List.replicate 38 0)

/-- The first eight bytes of the text are read as a version by the current format, which refuses
the text, and are its version after the second format has accepted it. -/
theorem second_format_keeps_version :
    ¬ FormatPure sampleZlib (fun _ => []) (secondFormatText 0) := by
  have hcurrent : (unpackAlone sampleZlib (fun _ => []) .current
      (decodeBase64 (secondFormatText 0))).1 = .error .refused := by decide +kernel
  have hsecond : (secondAttempt sampleZlib (fun _ => [])
      (decodeBase64 (secondFormatText 0))).1 = .ok () := by decide +kernel
  have hlevel : (secondAttempt sampleZlib (fun _ => [])
      (decodeBase64 (secondFormatText 0))).2.obj.peglevel.isValid = true := by decide +kernel
  rw [formatPure_second_iff (by decide +kernel) (attempt_eq hcurrent) (attempt_eq hsecond), hlevel]
  decide

/-- The second format reads columns below a supply of 2000. -/
theorem supply_outside_columns :
    ¬ StaysInBounds sampleZlib (fun _ => []) (secondFormatText 2000) := by
  have hcurrent : (unpackAlone sampleZlib (fun _ => []) .current
      (decodeBase64 (secondFormatText 2000))).1 = .error .refused := by decide +kernel
  have hsecond : (secondAttempt sampleZlib (fun _ => [])
      (decodeBase64 (secondFormatText 2000))).1 = .error .undefined := by decide +kernel
  have hnone := construct_of_undefined (by decide +kernel) hcurrent hsecond
  rw [staysInBounds_iff_isSome, hnone]
  exact Bool.false_ne_true

end BitBay.Codec.CPegData
