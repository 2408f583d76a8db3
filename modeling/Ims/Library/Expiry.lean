import Mathlib.Logic.Function.Basic
import Mathlib.Data.Nat.Basic

namespace Ims.Library.Expiry

variable {κ ν : Type}

structure Entry (ν : Type) where
  value : ν
  deadline : Nat
  deriving DecidableEq, Repr

abbrev Store (κ ν : Type) := κ → Option (Entry ν)

inductive Mode
  | nx
  | xx
  | always
  deriving DecidableEq, Repr

def Mode.admits (m : Mode) (present : Bool) : Bool :=
  match m with
  | .nx => !present
  | .xx => present
  | .always => true

def values (s : Store κ ν) : κ → Option ν := fun key => (s key).map Entry.value

def overdue (now : Nat) (entry : Option (Entry ν)) : Bool :=
  entry.any fun entry => decide (entry.deadline ≤ now)

/-- Every key was set, with this time to live, at an instant up to now. -/
def Timely (ttl now : Nat) (s : Store κ ν) : Prop :=
  ∀ key entry, s key = some entry → ttl ≤ entry.deadline ∧ entry.deadline ≤ now + ttl

def begun (ttl now : Nat) (entry : Option (Entry ν)) : Nat :=
  entry.elim now fun entry => entry.deadline - ttl

variable {ttl now : Nat} {s : Store κ ν} {key : κ}

theorem timely_later (h : Timely ttl now s) {later : Nat} (hle : now ≤ later) :
    Timely ttl later s := fun key entry hentry =>
  ⟨(h key entry hentry).1, Nat.le_trans (h key entry hentry).2 (Nat.add_le_add_right hle ttl)⟩

theorem begun_le (h : Timely ttl now s) (key : κ) : begun ttl now (s key) ≤ now := by
  cases hentry : s key with
  | none => exact le_refl _
  | some entry => exact Nat.sub_le_of_le_add (h key entry hentry).2

theorem begun_later {later : Nat} (hle : now ≤ later) (entry : Option (Entry ν)) :
    begun ttl now entry ≤ begun ttl later entry := by
  cases entry with
  | none => exact hle
  | some => exact le_refl _

variable [DecidableEq κ]

def put (m : Mode) (s : Store κ ν) (key : κ) (entry : Entry ν) : Store κ ν :=
  if m.admits (s key).isSome then Function.update s key (some entry) else s

def delete (s : Store κ ν) (key : κ) : Store κ ν := Function.update s key none

theorem put_of_admits {m : Mode} {entry : Entry ν} (h : m.admits (s key).isSome = true) :
    put m s key entry = Function.update s key (some entry) := if_pos h

theorem put_of_not {m : Mode} {entry : Entry ν} (h : m.admits (s key).isSome = false) :
    put m s key entry = s := by rw [put, h, if_neg Bool.false_ne_true]

theorem values_update (s : Store κ ν) (key : κ) (entry : Option (Entry ν)) :
    values (Function.update s key entry) =
      Function.update (values s) key (entry.map Entry.value) := by
  funext other
  by_cases h : other = key
  · subst h
    simp [values]
  · simp [values, h]

theorem timely_put (h : Timely ttl now s) (m : Mode) (key : κ) (value : ν) :
    Timely ttl now (put m s key ⟨value, now + ttl⟩) := by
  intro other entry hentry
  unfold put at hentry
  split at hentry
  · by_cases hkey : other = key
    · subst hkey
      rw [Function.update_self] at hentry
      cases hentry
      exact ⟨Nat.le_add_left _ _, le_refl _⟩
    · rw [Function.update_of_ne hkey] at hentry
      exact h other entry hentry
  · exact h other entry hentry

theorem timely_delete (h : Timely ttl now s) (key : κ) : Timely ttl now (delete s key) := by
  intro other entry hentry
  by_cases hkey : other = key
  · subst hkey
    rw [delete, Function.update_self] at hentry
    cases hentry
  · rw [delete, Function.update_of_ne hkey] at hentry
    exact h other entry hentry

/-- A command that sets the key begins its window anew. -/
theorem begun_put (h : Timely ttl now s) (m : Mode) (key : κ) (value : ν) (other : κ) :
    begun ttl now (s other) ≤ begun ttl now (put m s key ⟨value, now + ttl⟩ other) := by
  unfold put
  split
  · by_cases hkey : other = key
    · subst hkey
      rw [Function.update_self]
      exact Nat.le_trans (begun_le h other) (Nat.le_of_eq (Nat.add_sub_cancel now ttl).symm)
    · rw [Function.update_of_ne hkey]
  · exact le_refl _

theorem begun_delete (h : Timely ttl now s) (key other : κ) :
    begun ttl now (s other) ≤ begun ttl now (delete s key other) := by
  by_cases hkey : other = key
  · subst hkey
    rw [delete, Function.update_self]
    exact begun_le h other
  · rw [delete, Function.update_of_ne hkey]

/-- A window that runs out has lasted its time to live. -/
theorem begun_expire (h : Timely ttl now s) (hover : overdue now (s key) = true) :
    begun ttl now (s key) + ttl ≤ begun ttl now (delete s key key) := by
  obtain ⟨entry, hentry, hdeadline⟩ := (Option.any_eq_true _ _).mp hover
  rw [delete, Function.update_self, hentry]
  have := (h key entry hentry).1
  have := of_decide_eq_true hdeadline
  simp only [begun, Option.elim_some, Option.elim_none]
  omega

end Ims.Library.Expiry
