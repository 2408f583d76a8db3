import Mathlib.Data.Int.Basic

namespace Ims.Time

/-- A datetime: the fields as written, as microseconds from 1970-01-01 00:00,
and the offset of the zone they are written in, absent for a naive one. -/
structure Datetime where
  wall : Int
  utcoffset : Option Int
  deriving DecidableEq, Repr

/-- The instant a TIMESTAMPTZ column stores; a naive time is read as UTC. -/
def Datetime.instant (d : Datetime) : Int := d.wall - d.utcoffset.getD 0

def Datetime.utc (instant : Int) : Datetime := ⟨instant, some 0⟩

/-- The operator <, absent where Python raises TypeError. -/
def Datetime.lt (a b : Datetime) : Option Bool :=
  match a.utcoffset, b.utcoffset with
  | some x, some y => some (decide (a.wall - x < b.wall - y))
  | none, none => some (decide (a.wall < b.wall))
  | _, _ => none

/-- Comparing a naive and an aware time for equality is no error: they differ. -/
def Datetime.eq (a b : Datetime) : Bool :=
  match a.utcoffset, b.utcoffset with
  | some x, some y => decide (a.wall - x = b.wall - y)
  | none, none => decide (a.wall = b.wall)
  | _, _ => false

def minute : Int := 60000000

def Datetime.replaceSecond (d : Datetime) : Datetime := { d with wall := d.wall - d.wall % minute }

theorem instant_utc (t : Int) : (Datetime.utc t).instant = t := by
  simp [Datetime.instant, Datetime.utc]

theorem lt_utc (s t : Int) : (Datetime.utc s).lt (Datetime.utc t) = some (decide (s < t)) := by
  simp [Datetime.lt, Datetime.utc]

/-- Within one kind the operator agrees with the instants. -/
theorem lt_sameKind {a b : Datetime} (h : a.utcoffset.isSome = b.utcoffset.isSome) :
    a.lt b = some (decide (a.instant < b.instant)) := by
  rcases a with ⟨x, _ | i⟩ <;> rcases b with ⟨y, _ | j⟩
  · simp [Datetime.lt, Datetime.instant]
  · cases h
  · cases h
  · rfl

theorem lt_none_iff {a b : Datetime} :
    a.lt b = none ↔ a.utcoffset.isSome ≠ b.utcoffset.isSome := by
  rcases a with ⟨x, _ | i⟩ <;> rcases b with ⟨y, _ | j⟩ <;> simp [Datetime.lt]

theorem instant_of_eq {a : Datetime} {t : Int} (h : a.eq (.utc t) = true) : a.instant = t := by
  rcases a with ⟨x, _ | i⟩
  · cases h
  · simpa [Datetime.eq, Datetime.utc, Datetime.instant] using h

end Ims.Time
