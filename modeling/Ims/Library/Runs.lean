import Mathlib.Data.List.Induction

namespace Ims.Library.Runs

variable {σ ε α : Type} {step : σ → ε → Option σ} {ok : σ → ε → Prop} {s₀ : σ}

/-- The events es lead from s₀ to the last index, each of them taken in a
state in which ok admits it. -/
inductive Trace (step : σ → ε → Option σ) (ok : σ → ε → Prop) (s₀ : σ) : List ε → σ → Prop
  | start : Trace step ok s₀ [] s₀
  | next {es s e t} (h : Trace step ok s₀ es s) (he : ok s e) (hs : step s e = some t) :
      Trace step ok s₀ (es ++ [e]) t

theorem Trace.mono_step {ok' : σ → ε → Prop} {es s} (h : Trace step ok s₀ es s)
    (himp : ∀ s e t, ok s e → step s e = some t → ok' s e) : Trace step ok' s₀ es s := by
  induction h with
  | start => exact .start
  | next _ he hs ih => exact .next ih (himp _ _ _ he hs) hs

theorem Trace.mono {ok' : σ → ε → Prop} {es s} (h : Trace step ok s₀ es s)
    (himp : ∀ s e, ok s e → ok' s e) : Trace step ok' s₀ es s :=
  h.mono_step fun _ _ _ he _ => himp _ _ he

theorem Trace.invariant {es s} (h : Trace step ok s₀ es s) (I : σ → Prop) (hinit : I s₀)
    (hstep : ∀ s e t, I s → ok s e → step s e = some t → I t) : I s := by
  induction h with
  | start => exact hinit
  | next _ he hs ih => exact hstep _ _ _ ih he hs

/-- The rule for facts about the past: the invariant may read the events so far. -/
theorem Trace.invariant_past {es s} (h : Trace step ok s₀ es s) (I : List ε → σ → Prop)
    (hinit : I [] s₀)
    (hstep : ∀ es s e t, Trace step ok s₀ es s → I es s → ok s e → step s e = some t →
      I (es ++ [e]) t) : I es s := by
  induction h with
  | start => exact hinit
  | next h he hs ih => exact hstep _ _ _ _ h ih he hs

theorem Trace.with_invariant {es s} (h : Trace step ok s₀ es s) (I : σ → Prop) (hinit : I s₀)
    (hstep : ∀ s e t, I s → ok s e → step s e = some t → I t) :
    Trace step (fun s e => I s ∧ ok s e) s₀ es s := by
  induction h with
  | start => exact .start
  | next h he hs ih => exact .next ih ⟨h.invariant I hinit hstep, he⟩ hs

theorem Trace.trans {es es' s t} (h : Trace step ok s₀ es s) (h' : Trace step ok s es' t) :
    Trace step ok s₀ (es ++ es') t := by
  induction h' with
  | start => simpa using h
  | next _ he hs ih => simpa only [List.append_assoc] using Trace.next ih he hs

theorem Trace.nil_eq {s} (h : Trace step ok s₀ [] s) : s = s₀ := by
  generalize hes : ([] : List ε) = es at h
  cases h with
  | start => rfl
  | next => simp at hes

theorem Trace.last {es e t} (h : Trace step ok s₀ (es ++ [e]) t) :
    ∃ s, Trace step ok s₀ es s ∧ ok s e ∧ step s e = some t := by
  generalize hes : es ++ [e] = es' at h
  cases h with
  | start => simp at hes
  | next h he hs =>
      obtain ⟨rfl, hlast⟩ := List.append_inj' hes rfl
      cases hlast
      exact ⟨_, h, he, hs⟩

theorem Trace.det {ok' : σ → ε → Prop} {es s t} (h : Trace step ok s₀ es s)
    (h' : Trace step ok' s₀ es t) : s = t := by
  induction h generalizing t with
  | start => exact h'.nil_eq.symm
  | next _ _ hs ih =>
      obtain ⟨s', h', _, hs'⟩ := h'.last
      cases ih h'
      exact Option.some.inj (hs.symm.trans hs')

theorem Trace.and {ok' : σ → ε → Prop} {es s} (h : Trace step ok s₀ es s)
    (h' : Trace step ok' s₀ es s) : Trace step (fun s e => ok s e ∧ ok' s e) s₀ es s := by
  induction h with
  | start => exact .start
  | next h he hs ih =>
      obtain ⟨s', h', he', _⟩ := h'.last
      cases h.det h'
      exact .next (ih h') ⟨he, he'⟩ hs

theorem Trace.split {es₁ es₂ s} (h : Trace step ok s₀ (es₁ ++ es₂) s) :
    ∃ s₁, Trace step ok s₀ es₁ s₁ ∧ Trace step ok s₁ es₂ s := by
  induction es₂ using List.reverseRecOn generalizing s with
  | nil =>
      rw [List.append_nil] at h
      exact ⟨s, h, .start⟩
  | append_singleton es₂ e ih =>
      rw [← List.append_assoc] at h
      obtain ⟨_, h, he, hs⟩ := h.last
      obtain ⟨s₁, h₁, h₂⟩ := ih h
      exact ⟨s₁, h₁, .next h₂ he hs⟩

/-- The step is a function, so a state is the one that its events lead to. -/
theorem Trace.split_at {ok' : σ → ε → Prop} {es₁ es₂ s₁ s} (h : Trace step ok s₀ (es₁ ++ es₂) s)
    (h₁ : Trace step ok' s₀ es₁ s₁) : Trace step ok s₀ es₁ s₁ ∧ Trace step ok s₁ es₂ s := by
  obtain ⟨s', h', h₂⟩ := h.split
  cases h'.det h₁
  exact ⟨h', h₂⟩

/-- A property of states that a step keeps exactly when it is good says of the
last state whether all steps of the run were good. -/
theorem Trace.good_iff {es s} (h : Trace step ok s₀ es s) (I : σ → Prop) (good : σ → ε → Prop)
    (hinit : I s₀) (hstep : ∀ s e t, ok s e → step s e = some t → (I t ↔ I s ∧ good s e)) :
    I s ↔ Trace step (fun s e => ok s e ∧ good s e) s₀ es s := by
  induction h with
  | start => exact iff_of_true hinit .start
  | next h he hs ih =>
      rw [hstep _ _ _ he hs, ih]
      constructor
      · exact fun ⟨h, hgood⟩ => .next h ⟨he, hgood⟩ hs
      · intro hnext
        obtain ⟨s', h', hok, _⟩ := hnext.last
        cases h.det h'
        exact ⟨h', hok.2⟩

theorem Trace.cons {e es t u} (he : ok s₀ e) (hs : step s₀ e = some t)
    (h : Trace step ok t es u) : Trace step ok s₀ (e :: es) u :=
  (Trace.next .start he hs : Trace step ok s₀ [e] t).trans h

/-- A run of one system is a run of another when each step of it is a step of
the other, under the event that g gives for it, or leaves the image as it is. -/
theorem Trace.project {τ δ : Type} {step' : τ → δ → Option τ} {ok' : τ → δ → Prop} {es s}
    (h : Trace step ok s₀ es s) (f : σ → τ) (g : ε → Option δ)
    (hstep : ∀ s e t, ok s e → step s e = some t →
      (g e).elim (f t = f s) fun d => ok' (f s) d ∧ step' (f s) d = some (f t)) :
    Trace step' ok' (f s₀) (es.filterMap g) (f s) := by
  induction h with
  | start => exact .start
  | @next es s e t _ he hs ih =>
      have hmove := hstep s e t he hs
      rw [List.filterMap_append]
      cases hg : g e with
      | none =>
          rw [hg, Option.elim_none] at hmove
          rw [List.filterMap_cons_none hg, List.filterMap_nil, List.append_nil, hmove]
          exact ih
      | some d =>
          rw [hg, Option.elim_some] at hmove
          rw [List.filterMap_cons_some hg, List.filterMap_nil]
          exact .next ih hmove.1 hmove.2

def Once (step : σ → ε → Option σ) (s₀ : σ) (es : List ε) (P : σ → Prop) : Prop :=
  ∃ es₁ es₂ s, es = es₁ ++ es₂ ∧ Trace step (fun _ _ => True) s₀ es₁ s ∧ P s

theorem Once.now {es s} {P : σ → Prop} (h : Trace step ok s₀ es s) (hP : P s) :
    Once step s₀ es P :=
  ⟨es, [], s, (List.append_nil es).symm, h.mono fun _ _ _ => trivial, hP⟩

theorem Once.later {es e} {P : σ → Prop} (h : Once step s₀ es P) : Once step s₀ (es ++ [e]) P := by
  obtain ⟨es₁, es₂, s, rfl, hs, hP⟩ := h
  exact ⟨es₁, es₂ ++ [e], s, List.append_assoc _ _ _, hs, hP⟩

/-- What the events, taken from s on, add up to under the measure p of a step. -/
def tally (step : σ → ε → Option σ) (p : σ → ε → σ → Nat) : σ → List ε → Nat
  | _, [] => 0
  | s, e :: es => match step s e with
    | none => 0
    | some t => p s e t + tally step p t es

theorem Trace.tally_append {es s} (h : Trace step ok s₀ es s) (p : σ → ε → σ → Nat)
    (rest : List ε) : tally step p s₀ (es ++ rest) = tally step p s₀ es + tally step p s rest := by
  induction h generalizing rest with
  | start => simp [tally]
  | @next es s e t _ _ hs ih =>
      rw [List.append_assoc, ih, ih [e]]
      simp only [List.singleton_append, tally, hs]
      omega

theorem Trace.tally_next {es s e t} (h : Trace step ok s₀ es s) (hs : step s e = some t)
    (p : σ → ε → σ → Nat) : tally step p s₀ (es ++ [e]) = tally step p s₀ es + p s e t := by
  rw [h.tally_append]
  simp only [tally, hs, Nat.add_zero]

/-- A potential that pays for every step bounds their sum. -/
theorem Trace.tally_le {es s} (h : Trace step ok s₀ es s) (p : σ → ε → σ → Nat) (f : σ → Nat)
    (hstep : ∀ s e t, ok s e → step s e = some t → f s + p s e t ≤ f t) :
    f s₀ + tally step p s₀ es ≤ f s := by
  induction h with
  | start => simp [tally]
  | next h he hs ih =>
      have := hstep _ _ _ he hs
      rw [h.tally_next hs]
      omega

theorem Trace.tally_add_le {es s} (h : Trace step ok s₀ es s) (p : σ → ε → σ → Nat) (f : σ → Nat)
    (hstep : ∀ s e t, ok s e → step s e = some t → f t + p s e t ≤ f s) :
    f s + tally step p s₀ es ≤ f s₀ := by
  induction h with
  | start => simp [tally]
  | next h he hs ih =>
      have := hstep _ _ _ he hs
      rw [h.tally_next hs]
      omega

theorem Trace.le_tally {es s} (h : Trace step ok s₀ es s) (p : σ → ε → σ → Nat) (f : σ → Int)
    (hstep : ∀ s e t, ok s e → step s e = some t → f t ≤ f s + p s e t) :
    f s ≤ f s₀ + tally step p s₀ es := by
  induction h with
  | start => simp [tally]
  | next h he hs ih =>
      have := hstep _ _ _ he hs
      rw [h.tally_next hs]
      omega

def gather (step : σ → ε → Option σ) (p : σ → ε → List α) : σ → List ε → List α
  | _, [] => []
  | s, e :: es => match step s e with
    | none => []
    | some t => p s e ++ gather step p t es

theorem Trace.gather_append {es s} (h : Trace step ok s₀ es s) (p : σ → ε → List α)
    (rest : List ε) :
    gather step p s₀ (es ++ rest) = gather step p s₀ es ++ gather step p s rest := by
  induction h generalizing rest with
  | start => simp [gather]
  | @next es s e t _ _ hs ih =>
      rw [List.append_assoc, ih, ih [e]]
      simp only [List.singleton_append, gather, hs, List.append_assoc, List.append_nil]

theorem Trace.gather_next {es s e t} (h : Trace step ok s₀ es s) (hs : step s e = some t)
    (p : σ → ε → List α) : gather step p s₀ (es ++ [e]) = gather step p s₀ es ++ p s e := by
  rw [h.gather_append]
  simp only [gather, hs, List.append_nil]

theorem Trace.gather_eq {es s} (h : Trace step ok s₀ es s) (p : σ → ε → List α) (f : σ → List α)
    (hstep : ∀ s e t, ok s e → step s e = some t → f t = f s ++ p s e) :
    f s = f s₀ ++ gather step p s₀ es := by
  induction h with
  | start => simp [gather]
  | next h he hs ih =>
      rw [h.gather_next hs, hstep _ _ _ he hs, ih, List.append_assoc]

def replay (step : σ → ε → Option σ) (ok : σ → ε → Prop) [∀ s e, Decidable (ok s e)] :
    σ → List ε → Option σ
  | s, [] => some s
  | s, e :: es => if ok s e then (step s e).bind fun t => replay step ok t es else none

theorem replay_trace [∀ s e, Decidable (ok s e)] {es : List ε} {s t : σ}
    (h : replay step ok s es = some t) : Trace step ok s es t := by
  induction es generalizing s with
  | nil =>
      cases h
      exact .start
  | cons e es ih =>
      simp only [replay] at h
      split at h
      · next he =>
        obtain ⟨u, hu, h⟩ := Option.bind_eq_some_iff.mp h
        exact .cons he hu (ih h)
      · cases h

theorem trace_of_replay (step : σ → ε → Option σ) (ok : σ → ε → Prop) [∀ s e, Decidable (ok s e)]
    (s : σ) (es : List ε) (p : σ → Bool) (h : (replay step ok s es).any p = true) :
    ∃ t, Trace step ok s es t ∧ p t = true := by
  obtain ⟨t, ht, hp⟩ := (Option.any_eq_true _ _).mp h
  exact ⟨t, replay_trace ht, hp⟩

end Ims.Library.Runs
