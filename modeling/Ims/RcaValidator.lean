import Ims.Models

namespace Ims.RcaValidator

open Library.Text Time Models

/-- What getattr(rca, field, None) can be, an absent attribute being none. -/
inductive Value
  | none
  | str (s : String)
  | datetime (d : Datetime)
  | other
  deriving DecidableEq, Repr

structure RCALike where
  rootCauseCategory : Value
  fixApplied : Value
  prevention : Value
  rcaStartTime : Value
  rcaEndTime : Value
  deriving DecidableEq, Repr

def RCALike.getattr (rca : RCALike) (field : String) : Value :=
  if field = "root_cause_category" then rca.rootCauseCategory
  else if field = "fix_applied" then rca.fixApplied
  else if field = "prevention" then rca.prevention
  else if field = "rca_start_time" then rca.rcaStartTime
  else if field = "rca_end_time" then rca.rcaEndTime
  else .none

inductive RcaError
  | required
  | incomplete (missing : List String)
  | typeError
  deriving DecidableEq, Repr

def RcaError.message : RcaError → String
  | .required => "RCA is required to close a work item"
  | .incomplete missing => "RCA incomplete; missing or blank: " ++ ", ".intercalate missing
  | .typeError => "can't compare offset-naive and offset-aware datetimes"

def requiredFields : List String := ["root_cause_category", "fix_applied", "prevention"]

def Value.isBlank : Value → Bool
  | .str s => strip s = ""
  | _ => true

def Value.isDatetime : Value → Bool
  | .datetime _ => true
  | _ => false

def validate : Option RCALike → Except RcaError Unit
  | none => .error .required
  | some rca =>
      let missing := requiredFields.filter fun field => (rca.getattr field).isBlank
      let start := rca.getattr "rca_start_time"
      let stop := rca.getattr "rca_end_time"
      let missing := if start.isDatetime then missing else missing ++ ["rca_start_time"]
      let missing := if stop.isDatetime then missing else missing ++ ["rca_end_time"]
      let finish := if missing = [] then .ok () else .error (.incomplete missing)
      match start, stop with
      | .datetime a, .datetime b => match b.lt a with
        | none => .error .typeError
        | some true => .error (.incomplete ["rca_end_time must be >= rca_start_time"])
        | some false => finish
      | _, _ => finish

/-- A row of rca as the validator sees it: its times come back aware, in UTC. -/
def ofRow (row : RCA) : RCALike where
  rootCauseCategory := .str row.rootCauseCategory
  fixApplied := .str row.fixApplied
  prevention := .str row.prevention
  rcaStartTime := .datetime (.utc row.rcaStartTime)
  rcaEndTime := .datetime (.utc row.rcaEndTime)

/-- On rows, the validator asks for three texts that are not blank and for
times in order. -/
theorem validate_ofRow (row : RCA) :
    validate (some (ofRow row)) = .ok () ↔
      strip row.rootCauseCategory ≠ "" ∧ strip row.fixApplied ≠ "" ∧ strip row.prevention ≠ "" ∧
        row.rcaStartTime ≤ row.rcaEndTime := by
  have hstart : (ofRow row).getattr "rca_start_time" = .datetime (.utc row.rcaStartTime) := by
    simp [RCALike.getattr, ofRow]
  have hstop : (ofRow row).getattr "rca_end_time" = .datetime (.utc row.rcaEndTime) := by
    simp [RCALike.getattr, ofRow]
  have hmissing : (requiredFields.filter fun field => ((ofRow row).getattr field).isBlank) = [] ↔
      strip row.rootCauseCategory ≠ "" ∧ strip row.fixApplied ≠ "" ∧ strip row.prevention ≠ "" := by
    simp [requiredFields, RCALike.getattr, ofRow, Value.isBlank]
  simp only [validate, hstart, hstop, Value.isDatetime, if_true, lt_utc]
  by_cases horder : row.rcaEndTime < row.rcaStartTime
  · simp [horder, Int.not_le.mpr horder]
  · by_cases hblank : (requiredFields.filter fun field => ((ofRow row).getattr field).isBlank) = []
    · have := hmissing.mp hblank
      simp [horder, hblank, this, Int.not_lt.mp horder]
    · have := mt hmissing.mpr hblank
      simp only [horder, hblank, decide_false, if_false]
      constructor
      · intro h; cases h
      · rintro ⟨ha, hb, hc, _⟩; exact absurd ⟨ha, hb, hc⟩ this

/-- A row comes back with both times aware, so that they compare. -/
theorem validate_ofRow_ne (row : RCA) : validate (some (ofRow row)) ≠ .error .typeError := by
  have hstart : (ofRow row).getattr "rca_start_time" = .datetime (.utc row.rcaStartTime) := by
    simp [RCALike.getattr, ofRow]
  have hstop : (ofRow row).getattr "rca_end_time" = .datetime (.utc row.rcaEndTime) := by
    simp [RCALike.getattr, ofRow]
  simp only [validate, hstart, hstop, Value.isDatetime, if_true, lt_utc]
  split
  · next hnone => cases hnone
  · simp
  · split
    · simp
    · simp

def timeFields : List String := ["rca_start_time", "rca_end_time"]

/-- The times are not both datetimes, or they are of one kind. -/
def SameKind (rca : RCALike) : Prop :=
  ∀ a b, rca.rcaStartTime = .datetime a → rca.rcaEndTime = .datetime b →
    b.utcoffset.isSome = a.utcoffset.isSome

structure Complete (rca : RCALike) : Prop where
  texts : ∀ field ∈ requiredFields, ∃ s, rca.getattr field = .str s ∧ ∃ c ∈ s.toList, isSpace c = false
  times : ∃ a b, rca.rcaStartTime = .datetime a ∧ rca.rcaEndTime = .datetime b ∧ a.instant ≤ b.instant

def Defective (rca : RCALike) (field : String) : Prop :=
  field ∈ requiredFields ∧ (rca.getattr field).isBlank = true ∨
    field ∈ timeFields ∧ (rca.getattr field).isDatetime = false

structure ReportsEveryDefect (rca : RCALike) : Prop where
  accepts : validate (some rca) = .ok () ↔ Complete rca
  rejects : ¬ Complete rca → ∃ missing, validate (some rca) = .error (.incomplete missing) ∧
    ∀ field, Defective rca field → field ∈ missing

def BlankAndReversed (rca : RCALike) : Prop :=
  (∃ a b, rca.rcaStartTime = .datetime a ∧ rca.rcaEndTime = .datetime b ∧ b.instant < a.instant) ∧
    ∃ field ∈ requiredFields, (rca.getattr field).isBlank = true

def blankFields (rca : RCALike) : List String :=
  requiredFields.filter fun field => (rca.getattr field).isBlank

theorem isBlank_false {v : Value} :
    v.isBlank = false ↔ ∃ s, v = .str s ∧ ∃ c ∈ s.toList, isSpace c = false := by
  cases v with
  | str s =>
      have hblank : strip s ≠ "" ↔ ∃ c ∈ s.toList, isSpace c = false := trim_ne_empty
      simpa [Value.isBlank] using hblank
  | none | datetime | other => simp [Value.isBlank]

theorem blankFields_nil {rca : RCALike} :
    blankFields rca = [] ↔
      ∀ field ∈ requiredFields, ∃ s, rca.getattr field = .str s ∧ ∃ c ∈ s.toList, isSpace c = false := by
  simp only [blankFields, List.filter_eq_nil_iff, Bool.not_eq_true, isBlank_false]

theorem isDatetime_true {v : Value} (h : v.isDatetime = true) : ∃ d, v = .datetime d := by
  cases v with
  | datetime d => exact ⟨d, rfl⟩
  | _ => cases h

/-- What validate does when it compares two datetimes of one kind. -/
theorem validate_datetimes {rca : RCALike} {a b : Datetime} (ha : rca.rcaStartTime = .datetime a)
    (hb : rca.rcaEndTime = .datetime b) (hkind : b.utcoffset.isSome = a.utcoffset.isSome) :
    validate (some rca) =
      if b.instant < a.instant then .error (.incomplete ["rca_end_time must be >= rca_start_time"])
      else if blankFields rca = [] then .ok () else .error (.incomplete (blankFields rca)) := by
  have hstart : rca.getattr "rca_start_time" = .datetime a := by simp [RCALike.getattr, ha]
  have hstop : rca.getattr "rca_end_time" = .datetime b := by simp [RCALike.getattr, hb]
  simp only [validate, hstart, hstop, Value.isDatetime, if_true, lt_sameKind hkind]
  by_cases horder : b.instant < a.instant
  · simp only [horder, decide_true, if_true]
  · simp only [horder, decide_false, if_false]
    rfl

def timeDefects (rca : RCALike) : List String :=
  (if rca.rcaStartTime.isDatetime then [] else ["rca_start_time"]) ++
    if rca.rcaEndTime.isDatetime then [] else ["rca_end_time"]

theorem validate_timeDefects {rca : RCALike} (h : timeDefects rca ≠ []) :
    validate (some rca) = .error (.incomplete (blankFields rca ++ timeDefects rca)) := by
  have hstart : rca.getattr "rca_start_time" = rca.rcaStartTime := by simp [RCALike.getattr]
  have hstop : rca.getattr "rca_end_time" = rca.rcaEndTime := by simp [RCALike.getattr]
  have hmissing : (if rca.rcaEndTime.isDatetime then
      if rca.rcaStartTime.isDatetime then blankFields rca else blankFields rca ++ ["rca_start_time"]
      else (if rca.rcaStartTime.isDatetime then blankFields rca
        else blankFields rca ++ ["rca_start_time"]) ++ ["rca_end_time"]) =
        blankFields rca ++ timeDefects rca := by
    unfold timeDefects
    by_cases ha : rca.rcaStartTime.isDatetime = true <;>
      by_cases hb : rca.rcaEndTime.isDatetime = true <;> simp [ha, hb]
  simp only [validate, hstart, hstop]
  split
  · next a b ha hb => simp [timeDefects, ha, hb, Value.isDatetime] at h
  · rw [← blankFields, hmissing, if_neg]
    exact fun hnil => h (List.append_eq_nil_iff.mp hnil).2

theorem timeDefects_nil {rca : RCALike} :
    timeDefects rca = [] ↔ ∃ a b, rca.rcaStartTime = .datetime a ∧ rca.rcaEndTime = .datetime b := by
  constructor
  · intro h
    by_cases ha : rca.rcaStartTime.isDatetime = true
    · by_cases hb : rca.rcaEndTime.isDatetime = true
      · obtain ⟨a, ha⟩ := isDatetime_true ha
        obtain ⟨b, hb⟩ := isDatetime_true hb
        exact ⟨a, b, ha, hb⟩
      · simp [timeDefects, hb] at h
    · simp [timeDefects, ha] at h
  · rintro ⟨a, b, ha, hb⟩
    simp [timeDefects, ha, hb, Value.isDatetime]

theorem mem_missing {rca : RCALike} {field : String} (h : Defective rca field) :
    field ∈ blankFields rca ++ timeDefects rca := by
  rcases h with ⟨hfield, hblank⟩ | ⟨hfield, htime⟩
  · exact List.mem_append_left _ (List.mem_filter.mpr ⟨hfield, hblank⟩)
  · apply List.mem_append_right
    simp only [timeFields, List.mem_cons, List.not_mem_nil, or_false] at hfield
    rcases hfield with rfl | rfl
    · have hstart : rca.rcaStartTime.isDatetime = false := by simpa [RCALike.getattr] using htime
      simp [timeDefects, hstart]
    · have hstop : rca.rcaEndTime.isDatetime = false := by simpa [RCALike.getattr] using htime
      simp [timeDefects, hstop]

theorem reports_timeDefects {rca : RCALike} (h : timeDefects rca ≠ []) : ReportsEveryDefect rca := by
  have hvalidate := validate_timeDefects h
  constructor
  · rw [hvalidate]
    refine iff_of_false nofun ?_
    rintro ⟨_, a, b, ha, hb, _⟩
    exact h (timeDefects_nil.mpr ⟨a, b, ha, hb⟩)
  · exact fun _ => ⟨_, hvalidate, fun field => mem_missing⟩

section Datetimes

variable {rca : RCALike} {a b : Datetime} (ha : rca.rcaStartTime = .datetime a)
  (hb : rca.rcaEndTime = .datetime b) (hkind : b.utcoffset.isSome = a.utcoffset.isSome)

include ha hb

theorem complete_datetimes : Complete rca ↔ blankFields rca = [] ∧ a.instant ≤ b.instant := by
  rw [blankFields_nil]
  constructor
  · rintro ⟨htexts, a', b', ha', hb', hle⟩
    cases ha.symm.trans ha'
    cases hb.symm.trans hb'
    exact ⟨htexts, hle⟩
  · exact fun ⟨htexts, hle⟩ => ⟨htexts, a, b, ha, hb, hle⟩

theorem blankAndReversed_datetimes :
    BlankAndReversed rca ↔ b.instant < a.instant ∧ blankFields rca ≠ [] := by
  have hblank : blankFields rca ≠ [] ↔ ∃ field ∈ requiredFields, (rca.getattr field).isBlank = true := by
    simp [blankFields]
  rw [hblank]
  constructor
  · rintro ⟨⟨a', b', ha', hb', hlt⟩, hfield⟩
    cases ha.symm.trans ha'
    cases hb.symm.trans hb'
    exact ⟨hlt, hfield⟩
  · exact fun ⟨hlt, hfield⟩ => ⟨⟨a, b, ha, hb, hlt⟩, hfield⟩

theorem missing_datetimes {field : String} (h : Defective rca field) : field ∈ blankFields rca := by
  have hmem := mem_missing h
  rwa [timeDefects_nil.mpr ⟨a, b, ha, hb⟩, List.append_nil] at hmem

include hkind

theorem reports_inOrder (horder : a.instant ≤ b.instant) : ReportsEveryDefect rca := by
  have hvalidate := validate_datetimes ha hb hkind
  rw [if_neg (Int.not_lt.mpr horder)] at hvalidate
  by_cases hblank : blankFields rca = []
  · have hcomplete : Complete rca := (complete_datetimes ha hb).mpr ⟨hblank, horder⟩
    rw [if_pos hblank] at hvalidate
    exact ⟨iff_of_true hvalidate hcomplete, fun hnot => absurd hcomplete hnot⟩
  · have hnot : ¬ Complete rca := fun h => hblank ((complete_datetimes ha hb).mp h).1
    rw [if_neg hblank] at hvalidate
    refine ⟨iff_of_false (by rw [hvalidate]; nofun) hnot, fun _ => ⟨_, hvalidate, ?_⟩⟩
    exact fun field => missing_datetimes ha hb

/-- Times in the wrong order are all that is reported then. -/
theorem reports_reversed_iff (horder : b.instant < a.instant) :
    ReportsEveryDefect rca ↔ blankFields rca = [] := by
  have hvalidate := validate_datetimes ha hb hkind
  rw [if_pos horder] at hvalidate
  have hnot : ¬ Complete rca := fun h => by
    have := ((complete_datetimes ha hb).mp h).2
    omega
  constructor
  · intro hreports
    obtain ⟨missing, herror, hmem⟩ := hreports.rejects hnot
    rw [hvalidate] at herror
    cases herror
    apply List.filter_eq_nil_iff.mpr
    intro field hfield hblank
    rw [List.mem_singleton.mp (hmem field (.inl ⟨hfield, hblank⟩))] at hfield
    simp [requiredFields] at hfield
  · intro hblank
    refine ⟨iff_of_false (by rw [hvalidate]; nofun) hnot, fun _ => ⟨_, hvalidate, ?_⟩⟩
    intro field hdefect
    have hmem := missing_datetimes ha hb hdefect
    rw [hblank] at hmem
    cases hmem

end Datetimes

/-- The validator reports every defect except where it stops at times in the
wrong order, with a text blank besides. -/
theorem validate_reports_every_defect {rca : RCALike} (hkind : SameKind rca) :
    ReportsEveryDefect rca ↔ ¬ BlankAndReversed rca := by
  by_cases htimes : timeDefects rca = []
  · obtain ⟨a, b, ha, hb⟩ := timeDefects_nil.mp htimes
    have hkind := hkind a b ha hb
    rw [blankAndReversed_datetimes ha hb]
    by_cases horder : b.instant < a.instant
    · rw [reports_reversed_iff ha hb hkind horder]
      simp [horder]
    · refine iff_of_true (reports_inOrder ha hb hkind (Int.not_lt.mp horder)) ?_
      exact fun h => horder h.1
  · refine iff_of_true (reports_timeDefects htimes) ?_
    rintro ⟨⟨a, b, ha, hb, _⟩, _⟩
    exact htimes (timeDefects_nil.mpr ⟨a, b, ha, hb⟩)

def threeDefects : RCALike where
  rootCauseCategory := .str "CONFIG"
  fixApplied := .str ""
  prevention := .str "   "
  rcaStartTime := .datetime (.utc 0)
  rcaEndTime := .none

theorem validate_reports_every_defect_three_defects :
    validate (some threeDefects) =
        .error (.incomplete ["fix_applied", "prevention", "rca_end_time"]) ∧
      ReportsEveryDefect threeDefects :=
  ⟨by decide, (validate_reports_every_defect fun _ _ _ h => by cases h).mpr fun h => by
    obtain ⟨⟨_, _, _, h, _⟩, _⟩ := h
    cases h⟩

def blankAndReversed : RCALike where
  rootCauseCategory := .str "CONFIG"
  fixApplied := .str ""
  prevention := .str "review"
  rcaStartTime := .datetime (.utc 1)
  rcaEndTime := .datetime (.utc 0)

theorem blank_fix_not_reported :
    SameKind blankAndReversed ∧ ¬ ReportsEveryDefect blankAndReversed := by
  refine ⟨fun _ _ ha hb => by cases ha; cases hb; rfl, fun h => ?_⟩
  have hreversed : ReportsEveryDefect blankAndReversed ↔ blankFields blankAndReversed = [] :=
    reports_reversed_iff rfl rfl rfl (by decide)
  exact absurd (hreversed.mp h) (by decide)

end Ims.RcaValidator
