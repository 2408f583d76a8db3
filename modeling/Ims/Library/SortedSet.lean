import Mathlib.Data.List.Sort

namespace Ims.Library.SortedSet

/-- A Redis sorted set, kept in its order: by score, then by member. -/
abbrev ZSet := List (String × Int)

def before (a b : String × Int) : Prop := a.2 < b.2 ∨ a.2 = b.2 ∧ a.1 ≤ b.1

instance (a b : String × Int) : Decidable (before a b) :=
  inferInstanceAs (Decidable (a.2 < b.2 ∨ a.2 = b.2 ∧ a.1 ≤ b.1))

def zrem (member : String) (set : ZSet) : ZSet := set.filter fun e => e.1 ≠ member

def zadd (member : String) (score : Int) (set : ZSet) : ZSet :=
  List.orderedInsert before (member, score) (zrem member set)

def zrange (set : ZSet) : List String := set.map Prod.fst

def zrevrange (limit : Nat) (set : ZSet) : ZSet := set.reverse.take limit

variable {member : String} {score : Int} {set : ZSet} {e : String × Int}

theorem mem_zrem : e ∈ zrem member set ↔ e ∈ set ∧ e.1 ≠ member := by
  simp [zrem]

theorem mem_zadd : e ∈ zadd member score set ↔ e = (member, score) ∨ e ∈ set ∧ e.1 ≠ member := by
  rw [zadd, List.mem_orderedInsert, mem_zrem]

theorem zrange_zadd {m : String} (h : m ∈ zrange (zadd member score set)) :
    m = member ∨ m ∈ zrange set := by
  obtain ⟨e, he, rfl⟩ := List.mem_map.mp h
  rcases mem_zadd.mp he with rfl | ⟨he, _⟩
  · exact .inl rfl
  · exact .inr (List.mem_map_of_mem he)

theorem zrange_zadd_of {m : String} (h : m = member ∨ m ∈ zrange set) :
    m ∈ zrange (zadd member score set) := by
  by_cases hm : m = member
  · subst hm
    exact List.mem_map_of_mem (mem_zadd.mpr (.inl rfl))
  · obtain ⟨e, he, rfl⟩ := List.mem_map.mp (h.resolve_left hm)
    exact List.mem_map_of_mem (mem_zadd.mpr (.inr ⟨he, hm⟩))

theorem zrange_zrem {m : String} : m ∈ zrange (zrem member set) ↔ m ∈ zrange set ∧ m ≠ member := by
  constructor
  · intro h
    obtain ⟨e, he, rfl⟩ := List.mem_map.mp h
    exact ⟨List.mem_map_of_mem (mem_zrem.mp he).1, (mem_zrem.mp he).2⟩
  · rintro ⟨h, hne⟩
    obtain ⟨e, he, rfl⟩ := List.mem_map.mp h
    exact List.mem_map_of_mem (mem_zrem.mpr ⟨he, hne⟩)

theorem nodup_zrem (h : (zrange set).Nodup) : (zrange (zrem member set)).Nodup :=
  List.Nodup.sublist (List.filter_sublist.map Prod.fst) h

theorem nodup_zadd (h : (zrange set).Nodup) : (zrange (zadd member score set)).Nodup := by
  have hperm : (zrange (zadd member score set)).Perm (member :: zrange (zrem member set)) :=
    (List.perm_orderedInsert before (member, score) (zrem member set)).map Prod.fst
  rw [hperm.nodup_iff, List.nodup_cons]
  refine ⟨fun hmem => ?_, nodup_zrem h⟩
  obtain ⟨e, he, rfl⟩ := List.mem_map.mp hmem
  exact (mem_zrem.mp he).2 rfl

/-- Of a member that was not there the set has one entry more. -/
theorem added_zadd (h : member ∉ zrange set) :
    (zadd member score set).filter (fun e => e ∉ set) = [(member, score)] := by
  have hold : zrem member set = set := by
    refine List.filter_eq_self.mpr fun e he => decide_eq_true fun hm => h ?_
    exact hm ▸ List.mem_map_of_mem he
  have hnew : (member, score) ∉ set := fun he => h (List.mem_map_of_mem (f := Prod.fst) he)
  have hperm : (zadd member score set).Perm ((member, score) :: set) := by
    rw [zadd, hold]
    exact List.perm_orderedInsert before (member, score) set
  have hnone : set.filter (fun e => e ∉ set) = [] :=
    List.filter_eq_nil_iff.mpr fun e he => by simpa using he
  have hsingle : ((member, score) :: set).filter (fun e => e ∉ set) = [(member, score)] := by
    rw [List.filter_cons, if_pos (by simpa using hnew), hnone]
  exact List.perm_singleton.mp (hsingle ▸ hperm.filter fun e => decide (e ∉ set))

/-- A selection of members that leaves out the one removed. -/
theorem filter_zrem {p : String × Int → Bool} (hp : ∀ e ∈ set, e.1 = member → p e = false) :
    (zrem member set).filter p = set.filter p := by
  rw [zrem, List.filter_filter]
  apply List.filter_congr
  intro e he
  by_cases hm : e.1 = member
  · simp [hm, hp e he hm]
  · simp [hm]

theorem filter_zadd {p : String × Int → Bool} (hp : ∀ e, e.1 = member → p e = false) :
    (zadd member score set).filter p = set.filter p := by
  have hinsert (l : ZSet) :
      (List.orderedInsert before (member, score) l).filter p = l.filter p := by
    induction l with
    | nil => simp [hp (member, score) rfl]
    | cons b l ih =>
        by_cases hb : before (member, score) b
        · rw [List.orderedInsert_cons_of_le before l hb, List.filter_cons_of_neg]
          simp [hp (member, score) rfl]
        · rw [List.orderedInsert_of_not_le before l hb, List.filter_cons, List.filter_cons, ih]
  rw [zadd, hinsert]
  exact filter_zrem fun e _ => hp e

end Ims.Library.SortedSet
