import Mathlib.Data.List.Basic
import Mathlib.Data.List.Nodup
import Mathlib.Algebra.BigOperators.Group.List.Basic
import Mathlib.Tactic.Abel

namespace Ims.Library.Slots

variable {α β : Type} {l : List α} {k : Nat} {a a' : α}

/-! A list of processes, of which a step replaces the one at index k. -/

theorem lt_of_slot (hk : l[k]? = some a) : k < l.length := by
  obtain ⟨h, _⟩ := List.getElem?_eq_some_iff.mp hk
  exact h

theorem forall_set {P : α → Prop} (h : ∀ b ∈ l, P b) (ha : P a') : ∀ b ∈ l.set k a', P b := by
  intro b hb
  rcases List.mem_or_eq_of_mem_set hb with hb | rfl
  · exact h b hb
  · exact ha

theorem forall_push {P : α → Prop} (h : ∀ b ∈ l, P b) (ha : P a) : ∀ b ∈ l ++ [a], P b := by
  intro b hb
  rcases List.mem_append.mp hb with hb | hb
  · exact h b hb
  · rwa [List.mem_singleton.mp hb]

theorem set_self (hk : l[k]? = some a) : l.set k a = l := by
  obtain ⟨_, rfl⟩ := List.getElem?_eq_some_iff.mp hk
  exact List.set_getElem_self _

theorem mem_set_self (hk : l[k]? = some a) : a' ∈ l.set k a' :=
  List.mem_set (lt_of_slot hk) a'

theorem mem_set_or (hk : l[k]? = some a) {b : α} (hb : b ∈ l) : b = a ∨ b ∈ l.set k a' := by
  obtain ⟨i, hi⟩ := List.mem_iff_getElem?.mp hb
  by_cases hik : k = i
  · subst hik
    exact .inl (Option.some.inj (hi.symm.trans hk))
  · exact .inr (List.mem_iff_getElem?.mpr ⟨i, by rw [List.getElem?_set_ne hik, hi]⟩)

theorem exists_set {P : α → Prop} (hk : l[k]? = some a) (ha : P a → P a') (h : ∃ b ∈ l, P b) :
    ∃ b ∈ l.set k a', P b := by
  obtain ⟨b, hb, hP⟩ := h
  rcases mem_set_or hk hb with rfl | hb
  · exact ⟨a', mem_set_self hk, ha hP⟩
  · exact ⟨b, hb, hP⟩

theorem map_set {g : α → β} (hk : l[k]? = some a) (hg : g a' = g a) : (l.set k a').map g = l.map g := by
  rw [List.map_set]
  apply List.ext_getElem?
  intro i
  by_cases hik : k = i
  · subst hik
    rw [List.getElem?_set_self (by simpa using lt_of_slot hk), List.getElem?_map, hk, hg]
    rfl
  · rw [List.getElem?_set_ne hik]

theorem countP_set (hk : l[k]? = some a) (p : α → Bool) (a' : α) :
    (l.set k a').countP p + (p a).toNat = l.countP p + (p a').toNat := by
  have hlt := lt_of_slot hk
  have ha : l[k] = a := (List.getElem?_eq_some_iff.mp hk).2
  rw [List.countP_set hlt, ha]
  cases h : p a with
  | false => cases p a' <;> simp
  | true =>
      have hpos : 0 < l.countP p := List.countP_pos_iff.mpr ⟨a, List.mem_of_getElem? hk, h⟩
      cases p a' <;> simp only [if_true, Bool.toNat_true, Bool.toNat_false, Bool.false_eq_true,
        if_false] <;> omega

theorem countP_keep (hk : l[k]? = some a) {p : α → Bool} (hp : p a' = p a) :
    (l.set k a').countP p = l.countP p := by
  have hcount := countP_set hk p a'
  rw [hp] at hcount
  exact Nat.add_right_cancel hcount

theorem sum_set {M : Type} [AddCommMonoid M] (hk : l[k]? = some a) (f : α → M) (a' : α) :
    ((l.set k a').map f).sum + f a = (l.map f).sum + f a' := by
  induction l generalizing k with
  | nil => cases hk
  | cons b l ih =>
      cases k with
      | zero =>
          cases hk
          simp only [List.set_cons_zero, List.map_cons, List.sum_cons]
          rw [add_right_comm, add_comm (f a')]
          abel
      | succ k =>
          simp only [List.set_cons_succ, List.map_cons, List.sum_cons, add_assoc, ih hk]

theorem countP_le_of_slot (hk : l[k]? = some a) (p : α → Bool) : (p a).toNat ≤ l.countP p := by
  cases h : p a with
  | false => exact Nat.zero_le _
  | true => exact List.countP_pos_iff.mpr ⟨a, List.mem_of_getElem? hk, h⟩

theorem filter_set_keep {p : α → Bool} (hk : l[k]? = some a) (ha : p a = false) (ha' : p a' = false) :
    (l.set k a').filter p = l.filter p := by
  induction l generalizing k with
  | nil => cases hk
  | cons b l ih =>
      cases k with
      | zero =>
          cases hk
          rw [List.set_cons_zero, List.filter_cons_of_neg (by rw [ha']; exact Bool.false_ne_true),
            List.filter_cons_of_neg (by rw [ha]; exact Bool.false_ne_true)]
      | succ k => rw [List.set_cons_succ, List.filter_cons, List.filter_cons, ih hk]

/-- The replaced process among those with property p. -/
theorem filter_set {p : α → Bool} (hk : l[k]? = some a) (ha : p a = true) (ha' : p a' = true) :
    ∃ l₁ l₂, l.filter p = l₁ ++ a :: l₂ ∧ (l.set k a').filter p = l₁ ++ a' :: l₂ := by
  induction l generalizing k with
  | nil => cases hk
  | cons b l ih =>
      cases k with
      | zero =>
          cases hk
          refine ⟨[], l.filter p, List.filter_cons_of_pos ha, ?_⟩
          rw [List.set_cons_zero, List.filter_cons_of_pos ha', List.nil_append]
      | succ k =>
          obtain ⟨l₁, l₂, h, h'⟩ := ih hk
          rw [List.set_cons_succ, List.filter_cons, List.filter_cons]
          split
          · exact ⟨b :: l₁, l₂, by rw [h, List.cons_append], by rw [h', List.cons_append]⟩
          · exact ⟨l₁, l₂, h, h'⟩

theorem filter_set_last {p : α → Bool} {old : List α} (hk : l[k]? = some a) (ha : p a = true)
    (ha' : p a' = true) (hold : l.filter p = old ++ [a]) (hnot : a ∉ old) :
    (l.set k a').filter p = old ++ [a'] := by
  obtain ⟨l₁, l₂, h, h'⟩ := filter_set hk ha ha'
  rw [hold] at h
  rw [h']
  rcases List.eq_nil_or_concat l₂ with rfl | ⟨l₃, b, rfl⟩
  · rw [List.append_cancel_right h]
  · rw [List.concat_eq_append, ← List.cons_append, ← List.append_assoc] at h
    obtain ⟨rfl, _⟩ := List.append_inj' h rfl
    exact absurd (List.mem_append_right _ List.mem_cons_self) hnot

/-- What survives the replacement of any one process survives that of all of them. -/
theorem map_of_slots {P : List α → Prop} {f : α → α} (h : P l)
    (hset : ∀ l k a, P l → l[k]? = some a → P (l.set k (f a))) : P (l.map f) := by
  suffices hall : ∀ l₁, P (l₁ ++ l) → P (l₁ ++ l.map f) from hall [] h
  clear h
  induction l with
  | nil => exact fun _ h => h
  | cons a l ih =>
      intro l₁ h
      have hfirst := hset _ l₁.length a h (by simp)
      rw [List.set_append_right _ _ (Nat.le_refl _), Nat.sub_self, List.set_cons_zero,
        List.append_cons] at hfirst
      rw [List.map_cons, List.append_cons]
      exact ih _ hfirst

/-- What a slot holds, or first while it is empty, pays for a change of the slot. -/
theorem elim_set_add_le (hk : l[k]? = some a) {f : α → Nat} {first cost : Nat}
    (h : f a' + cost ≤ f a) (i : Nat) :
    ((l.set k a')[i]?).elim first f + (if k = i then cost else 0) ≤ (l[i]?).elim first f := by
  by_cases hi : k = i
  · subst hi
    rw [List.getElem?_set_self (lt_of_slot hk), hk, if_pos rfl]
    exact h
  · rw [List.getElem?_set_ne hi, if_neg hi]
    exact Nat.le_refl _

theorem elim_push_le {f : α → Nat} {first : Nat} (h : f a ≤ first) (i : Nat) :
    ((l ++ [a])[i]?).elim first f ≤ (l[i]?).elim first f := by
  rcases Nat.lt_trichotomy i l.length with hlt | rfl | hgt
  · rw [List.getElem?_append_left hlt]
  · rw [List.getElem?_concat_length, List.getElem?_eq_none (Nat.le_refl _)]
    exact h
  · have hlength : (l ++ [a]).length ≤ i := by
      rw [List.length_append]
      exact hgt
    rw [List.getElem?_eq_none hlength, List.getElem?_eq_none (Nat.le_of_lt hgt)]

theorem eq_of_nodup {g : α → β} (h : (l.map g).Nodup) {b c : α} (hb : b ∈ l) (hc : c ∈ l)
    (hg : g b = g c) : b = c :=
  List.inj_on_of_nodup_map h hb hc hg

theorem length_le_one (h : l.Nodup) (heq : ∀ b ∈ l, ∀ c ∈ l, b = c) : l.length ≤ 1 := by
  cases l with
  | nil => exact Nat.zero_le 1
  | cons b l =>
      cases l with
      | nil => exact Nat.le_refl 1
      | cons c l =>
          have hbc := heq b List.mem_cons_self c (List.mem_cons_of_mem b List.mem_cons_self)
          exact absurd (hbc ▸ List.mem_cons_self) (List.nodup_cons.mp h).1

theorem slot_unique {g : α → β} {j : Nat} {b : α} (h : (l.map g).Nodup)
    (ha : l[j]? = some a) (hb : l[k]? = some b) (hg : g a = g b) : j = k := by
  refine (List.getElem?_inj (l := l.map g) (by simpa using lt_of_slot ha) h).mp ?_
  rw [List.getElem?_map, List.getElem?_map, ha, hb, Option.map_some, Option.map_some, hg]

end Ims.Library.Slots
