import Mathlib.Data.List.Nodup
import Mathlib.Data.Int.Cast.Lemmas
import Mathlib.Algebra.BigOperators.Group.List.Basic

namespace Ims.Library.Tables

variable {α β : Type}

/-- The statement UPDATE … SET f WHERE p, on a table as the list of its rows. -/
def updateWhere (p : α → Bool) (f : α → α) (rows : List α) : List α :=
  rows.map fun row => if p row then f row else row

theorem map_updateWhere (g : α → β) (p : α → Bool) (f : α → α) (h : ∀ row, g (f row) = g row)
    (rows : List α) : (updateWhere p f rows).map g = rows.map g := by
  rw [updateWhere, List.map_map]
  apply List.map_congr_left
  intro row _
  by_cases hp : p row <;> simp [hp, h]

theorem mem_updateWhere {p : α → Bool} {f : α → α} {rows : List α} {row : α} :
    row ∈ updateWhere p f rows ↔ ∃ old ∈ rows, row = if p old then f old else old := by
  simp only [updateWhere, List.mem_map, eq_comm]

theorem forall_updateWhere {Q : α → Prop} {p : α → Bool} {f : α → α} {rows : List α}
    (h : ∀ row ∈ rows, Q row) (hf : ∀ row, Q row → Q (f row)) : ∀ row ∈ updateWhere p f rows, Q row := by
  intro row hrow
  obtain ⟨old, hold, rfl⟩ := mem_updateWhere.mp hrow
  split
  · exact hf old (h old hold)
  · exact h old hold

/-- A search by columns that the update leaves as they are. -/
theorem find?_updateWhere {p q : α → Bool} {f : α → α} (h : ∀ row, q (f row) = q row) (rows : List α) :
    (updateWhere p f rows).find? q = (rows.find? q).map fun row => if p row then f row else row := by
  induction rows with
  | nil => rfl
  | cons row rows ih =>
      have hhead : q (if p row then f row else row) = q row := by
        split
        · exact h row
        · rfl
      rw [updateWhere] at ih ⊢
      rw [List.map_cons, List.find?_cons, List.find?_cons, hhead, ih]
      cases q row <;> rfl

theorem find?_key [DecidableEq β] {key : α → β} {rows : List α} (h : (rows.map key).Nodup) {row : α}
    (hrow : row ∈ rows) : (rows.find? fun other => decide (key other = key row)) = some row := by
  cases hfind : rows.find? fun other => decide (key other = key row) with
  | none => simpa using List.find?_eq_none.mp hfind row hrow
  | some other =>
      have hkey : key other = key row := by simpa using List.find?_some hfind
      rw [List.inj_on_of_nodup_map h (List.mem_of_find?_eq_some hfind) hrow hkey]

theorem nodup_where {key : α → β} {rows : List α} (h : (rows.map key).Nodup) (p : α → Bool) :
    ((rows.filter p).map key).Nodup :=
  h.sublist (List.filter_sublist.map key)

/-- An insert under a UNIQUE column. -/
theorem nodup_push {key : α → β} {rows : List α} {row : α} (h : (rows.map key).Nodup)
    (hnew : key row ∉ rows.map key) : ((rows ++ [row]).map key).Nodup := by
  rw [List.map_append, List.nodup_append]
  refine ⟨h, List.nodup_singleton _, ?_⟩
  intro k hk k' hk'
  rw [List.mem_singleton.mp hk']
  rintro rfl
  exact hnew hk

/-- An insert under the next value of a sequence. -/
theorem insert_next {key : α → Int} {rows : List α} {seq : Int} (row : α) (h : (rows.map key).Nodup)
    (hseq : ∀ k ∈ rows.map key, k ≤ seq) (hrow : key row = seq + 1) :
    ((rows ++ [row]).map key).Nodup ∧ ∀ k ∈ (rows ++ [row]).map key, k ≤ seq + 1 := by
  refine ⟨nodup_push h fun hmem => ?_, fun k hk => ?_⟩
  · have := hseq _ hmem
    omega
  · rw [List.map_append] at hk
    rcases List.mem_append.mp hk with hk | hk
    · have := hseq k hk
      omega
    · exact Int.le_of_eq ((List.mem_singleton.mp hk).trans hrow)

theorem sum_updateWhere (g : α → Int) (p : α → Bool) (f : α → α) (d : Int)
    (h : ∀ row, p row = true → g (f row) = g row + d) (rows : List α) :
    ((updateWhere p f rows).map g).sum = (rows.map g).sum + d * rows.countP p := by
  induction rows with
  | nil => simp [updateWhere]
  | cons row rows ih =>
      rw [updateWhere] at ih ⊢
      simp only [List.map_cons, List.sum_cons, ih, List.countP_cons]
      cases hp : p row with
      | false => simp [Int.add_assoc]
      | true =>
          simp only [if_true, h row hp, Nat.cast_add, Nat.cast_one, Int.mul_add]
          omega

theorem filter_updateWhere {p q : α → Bool} {f : α → α} {rows : List α}
    (h : ∀ row ∈ rows, p row = true → q row = false ∧ q (f row) = false) :
    (updateWhere p f rows).filter q = rows.filter q := by
  induction rows with
  | nil => rfl
  | cons row rows ih =>
      rw [updateWhere] at ih ⊢
      rw [List.map_cons, List.filter_cons, List.filter_cons,
        ih fun other hother => h other (List.mem_cons_of_mem row hother)]
      cases hp : p row with
      | false => simp
      | true => simp [(h row List.mem_cons_self hp).1, (h row List.mem_cons_self hp).2]

theorem countP_key_le [DecidableEq β] {key : α → β} {rows : List α} (h : (rows.map key).Nodup)
    {p : α → Bool} {k : β} (hp : ∀ row, p row = true ↔ key row = k) : rows.countP p ≤ 1 := by
  have hcount := List.nodup_iff_count_le_one.mp h k
  rw [List.count, List.countP_map] at hcount
  rwa [List.countP_congr fun row _ => (hp row).trans beq_iff_eq.symm]

theorem filter_key [DecidableEq β] {key : α → β} {rows : List α} (h : (rows.map key).Nodup) {row : α}
    (hrow : row ∈ rows) : rows.filter (fun other => decide (key other = key row)) = [row] := by
  have hlen : (rows.filter fun other => decide (key other = key row)).length ≤ 1 := by
    rw [← List.countP_eq_length_filter]
    exact countP_key_le h fun other => decide_eq_true_iff
  have hmem : row ∈ rows.filter fun other => decide (key other = key row) :=
    List.mem_filter.mpr ⟨hrow, decide_eq_true rfl⟩
  match hfilter : rows.filter fun other => decide (key other = key row) with
  | [] => simp [hfilter] at hmem
  | [other] =>
      rw [hfilter] at hmem
      rw [List.mem_singleton.mp hmem]
  | _ :: _ :: _ => simp [hfilter] at hlen

end Ims.Library.Tables
