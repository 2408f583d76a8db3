import Mathlib.Data.List.Perm.Basic
import Mathlib.Data.List.Nodup

namespace Ims.Library.TopRows

variable {α β : Type}

/-- What a query with ORDER BY key DESC and LIMIT may answer: rows with one key
come in any order, and any of them may be cut off. -/
structure IsTop (key : α → Int) (limit : Nat) (rows out : List α) : Prop where
  picked : ∃ rest, (out ++ rest).Perm rows ∧ ∀ a ∈ out, ∀ b ∈ rest, key b ≤ key a
  sorted : out.Pairwise fun a b => key b ≤ key a
  length : out.length = min limit rows.length

variable {key : α → Int} {limit : Nat} {rows out : List α}

/-- Rows put in order and cut off are an answer. -/
theorem isTop_take (hperm : out.Perm rows) (hsorted : out.Pairwise fun a b => key b ≤ key a) :
    IsTop key limit rows (out.take limit) := by
  rw [← List.take_append_drop limit out] at hperm hsorted
  obtain ⟨htake, _, hbehind⟩ := List.pairwise_append.mp hsorted
  refine ⟨⟨_, hperm, hbehind⟩, htake, ?_⟩
  rw [List.length_take, ← hperm.length_eq, List.take_append_drop]

theorem IsTop.subset (h : IsTop key limit rows out) {a : α} (ha : a ∈ out) : a ∈ rows := by
  obtain ⟨rest, hperm, _⟩ := h.picked
  exact hperm.mem_iff.mp (List.mem_append_left rest ha)

theorem IsTop.nodup (h : IsTop key limit rows out) {g : α → β} (hg : (rows.map g).Nodup) :
    (out.map g).Nodup := by
  obtain ⟨rest, hperm, _⟩ := h.picked
  have hnodup := (hperm.map g).nodup_iff.mpr hg
  rw [List.map_append] at hnodup
  exact hnodup.of_append_left

/-- A row that is not in the answer is behind every row that is. -/
theorem IsTop.behind (h : IsTop key limit rows out) {b : α} (hb : b ∈ rows) (hout : b ∉ out) :
    out.length = limit ∧ ∀ a ∈ out, key b ≤ key a := by
  obtain ⟨rest, hperm, hbehind⟩ := h.picked
  have hrest : b ∈ rest := (List.mem_append.mp (hperm.mem_iff.mpr hb)).resolve_left hout
  refine ⟨?_, fun a ha => hbehind a ha b hrest⟩
  have hlength := hperm.length_eq
  have hpos := List.length_pos_of_mem hrest
  rw [List.length_append] at hlength
  have := h.length
  omega

end Ims.Library.TopRows
