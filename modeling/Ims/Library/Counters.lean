import Ims.Library.Tables
import Mathlib.Data.List.Induction

namespace Ims.Library.Counters

open Tables

variable {ρ κ : Type}

/-- The rows of a table of counters: each has its key and its count, and the two
determine it. -/
structure Counter (ρ κ : Type) where
  key : ρ → κ
  count : ρ → Int
  first : κ → ρ
  again : ρ → ρ
  key_first : ∀ k, key (first k) = k
  count_first : ∀ k, count (first k) = 1
  key_again : ∀ row, key (again row) = key row
  count_again : ∀ row, count (again row) = count row + 1
  ext : ∀ {row other}, key row = key other → count row = count other → row = other

variable [DecidableEq κ] (c : Counter ρ κ)

def Counter.has (k : κ) (row : ρ) : Bool := decide (c.key row = k)

def Counter.upsert (k : κ) (rows : List ρ) : List ρ :=
  if rows.any (c.has k) then updateWhere (c.has k) c.again rows else rows ++ [c.first k]

def Counter.countOf (rows : List ρ) (k : κ) : Int := ((rows.find? (c.has k)).map c.count).getD 0

def Counter.table (log : List κ) : List ρ := log.foldl (fun rows k => c.upsert k rows) []

variable {c} {k k' : κ} {rows : List ρ} {row : ρ} {log log' : List κ}

theorem has_iff : c.has k row = true ↔ c.key row = k := decide_eq_true_iff

theorem any_has : rows.any (c.has k) = true ↔ k ∈ rows.map c.key := by
  simp only [List.any_eq_true, has_iff, List.mem_map]

theorem keys_updated : (updateWhere (c.has k) c.again rows).map c.key = rows.map c.key :=
  map_updateWhere c.key _ _ c.key_again rows

theorem keys_upsert (h : k ∈ rows.map c.key) : (c.upsert k rows).map c.key = rows.map c.key := by
  rw [Counter.upsert, if_pos (any_has.mpr h), keys_updated]

theorem upsert_new (h : k ∉ rows.map c.key) : c.upsert k rows = rows ++ [c.first k] := by
  rw [Counter.upsert, if_neg fun hany => h (any_has.mp hany)]

theorem nodup_upsert (h : (rows.map c.key).Nodup) : ((c.upsert k rows).map c.key).Nodup := by
  by_cases hk : k ∈ rows.map c.key
  · rwa [keys_upsert hk]
  · rw [upsert_new hk]
    exact nodup_push h (by rwa [c.key_first])

theorem mem_keys_upsert : k' ∈ (c.upsert k rows).map c.key ↔ k' ∈ rows.map c.key ∨ k' = k := by
  by_cases hk : k ∈ rows.map c.key
  · rw [keys_upsert hk]
    constructor
    · exact .inl
    · rintro (hmem | rfl)
      · exact hmem
      · exact hk
  · rw [upsert_new hk, List.map_append, List.map_singleton, c.key_first, List.mem_append,
      List.mem_singleton]

/-- A sum to which a row of k gives d more for every count more. -/
theorem sum_upsert (h : (rows.map c.key).Nodup) (g : ρ → Int) (d : Int)
    (hrow : ∀ row, c.key row = k → g (c.again row) = g row + d) (hnew : g (c.first k) = d) :
    ((c.upsert k rows).map g).sum = (rows.map g).sum + d := by
  by_cases hk : k ∈ rows.map c.key
  · obtain ⟨row, hmem, hrowkey⟩ := List.mem_map.mp hk
    have hpos := List.countP_pos_iff.mpr ⟨row, hmem, has_iff.mpr hrowkey⟩
    have hone := countP_key_le h (p := c.has k) fun _ => has_iff
    have hcount : rows.countP (c.has k) = 1 := by omega
    rw [Counter.upsert, if_pos (any_has.mpr hk),
      sum_updateWhere g _ _ d (fun row hhas => hrow row (has_iff.mp hhas)), hcount]
    simp
  · rw [upsert_new hk]
    simp [hnew]

theorem countOf_upsert : c.countOf (c.upsert k rows) k' =
    c.countOf rows k' + if k = k' then 1 else 0 := by
  by_cases hk : k ∈ rows.map c.key
  · have hkeep (row : ρ) : c.has k' (c.again row) = c.has k' row := by
      rw [Counter.has, Counter.has, c.key_again]
    rw [Counter.upsert, if_pos (any_has.mpr hk), Counter.countOf, Counter.countOf,
      find?_updateWhere hkeep]
    cases hfind : rows.find? (c.has k') with
    | none =>
        have hne : k ≠ k' := by
          rintro rfl
          obtain ⟨row, hrow, hhas⟩ := List.any_eq_true.mp (any_has.mpr hk)
          exact List.find?_eq_none.mp hfind row hrow hhas
        simp [hne]
    | some row =>
        have hkey : c.key row = k' := has_iff.mp (List.find?_some hfind)
        by_cases heq : k = k'
        · simp [Counter.has, hkey, heq, c.count_again]
        · simp [Counter.has, hkey, heq, Ne.symm heq]
  · rw [upsert_new hk, Counter.countOf, Counter.countOf, List.find?_append]
    cases hfind : rows.find? (c.has k') with
    | none =>
        by_cases heq : k = k'
        · simp [Counter.has, heq, c.key_first, c.count_first]
        · simp [Counter.has, heq, c.key_first]
    | some row =>
        have hne : k ≠ k' := by
          rintro rfl
          exact hk (List.mem_map.mpr ⟨row, List.mem_of_find?_eq_some hfind,
            has_iff.mp (List.find?_some hfind)⟩)
        simp [hne]

theorem table_snoc (log : List κ) (k : κ) : c.table (log ++ [k]) = c.upsert k (c.table log) := by
  simp [Counter.table]

theorem nodup_table (log : List κ) : ((c.table log).map c.key).Nodup := by
  induction log using List.reverseRecOn with
  | nil => exact List.nodup_nil
  | append_singleton log k ih =>
      rw [table_snoc]
      exact nodup_upsert ih

theorem mem_keys_table : k ∈ (c.table log).map c.key ↔ k ∈ log := by
  induction log using List.reverseRecOn with
  | nil => exact Iff.rfl
  | append_singleton log k' ih =>
      rw [table_snoc, mem_keys_upsert, ih, List.mem_append, List.mem_singleton]

theorem countOf_table (log : List κ) (k : κ) :
    c.countOf (c.table log) k = log.countP fun k' => decide (k' = k) := by
  induction log using List.reverseRecOn with
  | nil => rfl
  | append_singleton log k' ih =>
      rw [table_snoc, countOf_upsert, ih, List.countP_append, List.countP_singleton, Nat.cast_add]
      by_cases h : k' = k <;> simp [h]

theorem sum_table (log : List κ) : ((c.table log).map c.count).sum = log.length := by
  induction log using List.reverseRecOn with
  | nil => rfl
  | append_singleton log k ih =>
      rw [table_snoc, sum_upsert (nodup_table log) c.count 1 (fun row _ => c.count_again row)
        (c.count_first k), ih]
      simp

/-- The rows are the keys of the log with how often they stand in it. -/
theorem mem_table : row ∈ c.table log ↔
    c.key row ∈ log ∧ c.count row = log.countP fun k => decide (k = c.key row) := by
  have hcount {row : ρ} (h : row ∈ c.table log) :
      c.count row = log.countP fun k => decide (k = c.key row) := by
    have hfind : (c.table log).find? (c.has (c.key row)) = some row := find?_key (nodup_table log) h
    rw [← countOf_table (c := c), Counter.countOf, hfind]
    rfl
  constructor
  · exact fun h => ⟨mem_keys_table.mp (List.mem_map_of_mem h), hcount h⟩
  · rintro ⟨hkey, heq⟩
    obtain ⟨other, hother, hsame⟩ := List.mem_map.mp (mem_keys_table.mpr hkey)
    have h : other = row := c.ext hsame (by rw [hcount hother, heq, hsame])
    rwa [← h]

/-- The order of the upserts does not matter. -/
theorem table_perm (h : log.Perm log') : (c.table log).Perm (c.table log') := by
  refine (List.perm_ext_iff_of_nodup (nodup_table log).of_map (nodup_table log').of_map).mpr
    fun row => ?_
  rw [mem_table, mem_table, h.mem_iff, h.countP_eq]

end Ims.Library.Counters
