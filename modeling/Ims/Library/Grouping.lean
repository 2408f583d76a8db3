import Mathlib.Data.List.Induction
import Mathlib.Data.List.ReduceOption
import Mathlib.Data.List.Flatten

namespace Ims.Library.Grouping

variable {α : Type}

/-- Values by the windows they fall into: the ended ones, and the present one,
which has no value when no window is open. -/
structure Windows (α : Type) where
  closed : List (List α) := []
  current : List α := []

def Windows.groups (w : Windows α) : List (List α) :=
  match w.current with
  | [] => w.closed
  | _ :: _ => w.closed ++ [w.current]

/-- A value falls into the present window, and opens one if there is none; none
stands for the end of the window. -/
def Windows.feed (w : Windows α) : Option α → Windows α
  | some a => { w with current := w.current ++ [a] }
  | none => { closed := w.groups }

def windows (history : List (Option α)) : Windows α := history.foldl Windows.feed {}

theorem windows_append (history history' : List (Option α)) :
    windows (history ++ history') = history'.foldl Windows.feed (windows history) :=
  List.foldl_append

variable {w : Windows α} {a : α}

theorem groups_open (h : w.current ≠ []) : w.groups = w.closed ++ [w.current] := by
  unfold Windows.groups
  split
  · next hnil => exact absurd hnil h
  · rfl

theorem groups_shut (h : w.current = []) : w.groups = w.closed := by
  rw [Windows.groups, h]

theorem groups_lapse (w : Windows α) : (w.feed none).groups = w.groups := rfl

theorem current_join (w : Windows α) (a : α) : (w.feed (some a)).current = w.current ++ [a] := rfl

theorem groups_join (w : Windows α) (a : α) :
    (w.feed (some a)).groups = w.closed ++ [w.current ++ [a]] :=
  groups_open (w := w.feed (some a)) (List.append_ne_nil_of_right_ne_nil _ (List.cons_ne_nil a []))

theorem groups_found (h : w.current = []) (a : α) :
    (w.feed (some a)).groups = w.groups ++ [[a]] := by
  rw [groups_join, groups_shut h, h, List.nil_append]

theorem flatten_feed (w : Windows α) (e : Option α) :
    (w.feed e).groups.flatten = w.groups.flatten ++ e.toList := by
  cases e with
  | none => rw [groups_lapse, Option.toList_none, List.append_nil]
  | some a =>
      rw [groups_join, List.flatten_append, List.flatten_singleton, Option.toList_some]
      by_cases h : w.current = []
      · rw [h, groups_shut h, List.nil_append]
      · rw [groups_open h, List.flatten_append, List.flatten_singleton, List.append_assoc]

/-- The windows keep every value, in the order of the history. -/
theorem flatten_windows (history : List (Option α)) :
    (windows history).groups.flatten = history.reduceOption := by
  induction history using List.reverseRecOn with
  | nil => rfl
  | append_singleton history e ih =>
      rw [windows_append, List.foldl_cons, List.foldl_nil, flatten_feed, ih,
        List.reduceOption_append]
      cases e <;> rfl

/-- There is at most one window more than ends of windows. -/
theorem length_groups_le (history : List (Option α)) :
    (windows history).groups.length ≤ 1 + history.countP Option.isNone := by
  have hle : (windows history).closed.length ≤ history.countP Option.isNone := by
    induction history using List.reverseRecOn with
    | nil => exact Nat.le_refl _
    | append_singleton history e ih =>
        rw [windows_append, List.foldl_cons, List.foldl_nil, List.countP_append,
          List.countP_singleton]
        cases e with
        | some a => simpa [Windows.feed] using ih
        | none =>
            have hgroups : (windows history).groups.length ≤ (windows history).closed.length + 1 := by
              unfold Windows.groups
              split <;> simp
            simp only [Windows.feed, Option.isNone_none, if_true]
            omega
  unfold Windows.groups
  split
  · omega
  · rw [List.length_append, List.length_singleton]
    omega

end Ims.Library.Grouping
