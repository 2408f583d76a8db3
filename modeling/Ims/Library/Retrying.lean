import Mathlib.Logic.Basic

namespace Ims.Library.Retrying

variable {α ε κ ι σ : Type}

/-- What a loop does after an exception: go on with the next counter, or give up.
Every counter it goes on with is lower in rank, so that the loop ends. -/
structure Policy (ε κ : Type) where
  next : ε → κ → Option κ
  rank : κ → Nat
  next_lt : ∀ {e k k'}, next e k = some k' → rank k' < rank k

def Policy.persist (p : Policy ε κ) (attempt : σ → Except ε α × σ) (k : κ) (s : σ) :
    Except ε α × σ :=
  match attempt s with
  | (.ok a, t) => (.ok a, t)
  | (.error e, t) =>
    match _h : p.next e k with
    | some k' => p.persist attempt k' t
    | none => (.error e, t)
termination_by p.rank k
decreasing_by exact p.next_lt _h

variable {p : Policy ε κ} {q : Policy ε ι} {attempt : σ → Except ε α × σ} {k k' : κ} {i : ι}
  {s t : σ} {a : α} {e : ε}

theorem persist_ok (h : attempt s = (.ok a, t)) : p.persist attempt k s = (.ok a, t) := by
  rw [Policy.persist, h]

theorem persist_retry (h : attempt s = (.error e, t)) (hk : p.next e k = some k') :
    p.persist attempt k s = p.persist attempt k' t := by
  rw [Policy.persist, h]
  simp only
  split
  · rename_i heq
    rw [Option.some.inj (heq.symm.trans hk)]
  · rename_i heq
    cases heq.symm.trans hk

theorem persist_raise (h : attempt s = (.error e, t)) (hk : p.next e k = none) :
    p.persist attempt k s = (.error e, t) := by
  rw [Policy.persist, h]
  simp only
  split
  · rename_i heq
    cases heq.symm.trans hk
  · rfl

/-- Induction over the attempts of a loop. -/
theorem persist_induction (p : Policy ε κ) (attempt : σ → Except ε α × σ)
    {motive : κ → σ → Except ε α × σ → Prop}
    (ok : ∀ k s a t, attempt s = (.ok a, t) → motive k s (.ok a, t))
    (retry : ∀ k s e t k', attempt s = (.error e, t) → p.next e k = some k' →
      motive k' t (p.persist attempt k' t) → motive k s (p.persist attempt k' t))
    (raise : ∀ k s e t, attempt s = (.error e, t) → p.next e k = none → motive k s (.error e, t))
    (k : κ) (s : σ) : motive k s (p.persist attempt k s) := by
  fun_induction Policy.persist p attempt k s with
  | case1 k s a t h => exact ok k s a t h
  | case2 k s e t h k' hk ih => exact retry k s e t k' h hk ih
  | case3 k s e t h hk => exact raise k s e t h hk

/-- The counter of two nested loops: while the inner policy goes on only its own
counter moves, and when it gives up it starts anew for the next outer one. -/
def nestNext (p : Policy ε κ) (q : Policy ε ι) (first : ι) (e : ε) : κ × ι → Option (κ × ι)
  | (k, i) =>
    match q.next e i with
    | some i' => some (k, i')
    | none => (p.next e k).map fun k' => (k', first)

theorem nestNext_lt (p : Policy ε κ) (q : Policy ε ι) (first : ι) {e : ε} {c d : κ × ι}
    (h : nestNext p q first e c = some d) :
    p.rank d.1 * (q.rank first + 1) + q.rank d.2 < p.rank c.1 * (q.rank first + 1) + q.rank c.2 := by
  simp only [nestNext] at h
  split at h
  · rename_i i' hi
    cases h
    exact Nat.add_lt_add_left (q.next_lt hi) _
  · obtain ⟨k', hk, rfl⟩ := Option.map_eq_some_iff.mp h
    have hmul := Nat.mul_le_mul_right (q.rank first + 1) (Nat.succ_le_of_lt (p.next_lt hk))
    rw [Nat.succ_mul] at hmul
    simp only
    omega

def Policy.nest (p : Policy ε κ) (q : Policy ε ι) (first : ι) : Policy ε (κ × ι) where
  next := nestNext p q first
  rank c := p.rank c.1 * (q.rank first + 1) + q.rank c.2
  next_lt := nestNext_lt p q first

structure Waits (p : Policy ε κ) where
  wait : ε → κ → Nat
  left : κ → Nat
  pays : ∀ {e k k'}, p.next e k = some k' → wait e k + left k' ≤ left k

def Waits.nest (v : Waits p) (w : Waits q) (first : ι) (calls : κ → Nat)
    (hcalls : ∀ {e k k'}, p.next e k = some k' → calls k' < calls k) : Waits (p.nest q first) where
  wait e c := if (q.next e c.2).isSome then w.wait e c.2 else v.wait e c.1
  left c := v.left c.1 + w.left c.2 + calls c.1 * w.left first
  pays {e c d} h := by
    simp only [Policy.nest, nestNext] at h
    split at h
    · rename_i i' hi
      cases h
      have := w.pays hi
      simp only [hi, Option.isSome_some, if_true]
      omega
    · rename_i hi
      obtain ⟨k', hk, rfl⟩ := Option.map_eq_some_iff.mp h
      have hwait := v.pays hk
      have hmul := Nat.mul_le_mul_right (w.left first) (Nat.succ_le_of_lt (hcalls hk))
      rw [Nat.succ_mul] at hmul
      simp only [hi, Option.isSome_none, Bool.false_eq_true, if_false]
      omega

def Policy.resume (p : Policy ε κ) (call : σ → Except ε α × σ) (k : κ) (r : Except ε α × σ) :
    Except ε α × σ :=
  match r with
  | (.ok a, t) => (.ok a, t)
  | (.error e, t) =>
    match p.next e k with
    | some k' => p.persist call k' t
    | none => (.error e, t)

theorem resume_call (p : Policy ε κ) (call : σ → Except ε α × σ) (k : κ) (s : σ) :
    p.resume call k (call s) = p.persist call k s := by
  rcases h : call s with ⟨e | a, t⟩
  · cases hk : p.next e k with
    | some k' => rw [persist_retry h hk, Policy.resume, hk]
    | none => rw [persist_raise h hk, Policy.resume, hk]
  · rw [persist_ok h, Policy.resume]

/-- Two nested loops are one loop over the pair of their counters. -/
theorem persist_nest (first : ι) (c : κ × ι) (s : σ) :
    (p.nest q first).persist attempt c s =
      p.resume (q.persist attempt first) c.1 (q.persist attempt c.2 s) := by
  refine persist_induction (p.nest q first) attempt
    (motive := fun c s r => r = p.resume (q.persist attempt first) c.1 (q.persist attempt c.2 s))
    ?_ ?_ ?_ c s
  · intro c s a t h
    rw [persist_ok h, Policy.resume]
  · intro c s e t d h hd ih
    rw [ih]
    simp only [Policy.nest, nestNext] at hd
    split at hd
    · rename_i i' hi
      cases hd
      rw [persist_retry h hi]
    · rename_i hi
      obtain ⟨k', hk, rfl⟩ := Option.map_eq_some_iff.mp hd
      rw [persist_raise h hi, resume_call, Policy.resume, hk]
  · intro c s e t h hd
    simp only [Policy.nest, nestNext] at hd
    split at hd
    · cases hd
    · rename_i hi
      rw [Option.map_eq_none_iff] at hd
      rw [persist_raise h hi, Policy.resume, hd]

end Ims.Library.Retrying
