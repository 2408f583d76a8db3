import Ims.DedupWindows
import Ims.Effects
import Ims.LifeCycle

namespace Ims.DedupOwners

open Library.Text Library.Runs Library.Slots Models PostgresRepo RedisCache Ingestion Service WorkerSteps
  ServiceSteps WorkerMoves WorkerFrames Rows Effects
open Workers (Stores Run Pc Outcome placeholder)
open DedupWindows (keyed findsAbsent)
open LifeCycle (takesEffect)

structure Publishes (s : World) (e : Event) (k : Nat) (r : Run) (won : Bool) : Prop where
  event : ∃ o, e = .run k o ∧ takesEffect o = true
  slot : s.runs[k]? = some r
  running : r.status = .running
  place : ∃ w, r.pc = .publish won w

/-- SET NX sets a key that is absent, SET XX one that is there, a plain SET either. -/
def setsKey (st : Stores) (r : Run) : Bool :=
  match r.pc with
  | .claim => !keyed r.sig.componentId st
  | .publish true _ => keyed r.sig.componentId st
  | .publish false _ => true
  | _ => false

def setter (c : String) (s : World) : Event → Option Nat
  | .run k o => match s.runs[k]? with
    | none => none
    | some r => if r.sig.componentId = c ∧ takesEffect o ∧ setsKey s.stores r then some k else none
  | _ => none

def setsBesides (k : Nat) (c : String) (s : World) (e : Event) (_ : World) : Nat :=
  if (setter c s e).any (fun j => decide (j ≠ k)) then 1 else 0

structure Finds (cfg : Settings) (n : Nat) (a : List Event) (k : Nat) (r : Run) (s₀ s₁ : World) :
    Prop where
  trace : Trace (step cfg) (fun _ _ => True) (init n) a s₀
  slot : s₀.runs[k]? = some r
  absent : findsAbsent r.sig.componentId s₀.stores r = true
  found : step cfg s₀ (.run k .ok) = some s₁

/-- A publish replaces nothing but the placeholder that its own run has set, and
no event of a run replaces the placeholder of another run or a published id. -/
structure OwnersOnly (cfg : Settings) (n : Nat) (es : List Event) : Prop where
  own : ∀ es₁ e es₂ s k r won v, es = es₁ ++ e :: es₂ →
    Trace (step cfg) (fun _ _ => True) (init n) es₁ s → Publishes s e k r won →
    s.stores.redis.strings (keyOf r) = some v →
    v = placeholder r.mongoId ∧ ∃ a b r₀ s₀ s₁, es₁ = a ++ .run k .ok :: b ∧
      Finds cfg n a k r₀ s₀ s₁ ∧ r₀.pc = .claim
  others : ∀ es₁ e es₂ s t k key v v', es = es₁ ++ e :: es₂ →
    Trace (step cfg) (fun _ _ => True) (init n) es₁ s → step cfg s e = some t →
    runIndex e = some k → s.stores.redis.strings key = some v →
    t.stores.redis.strings key = some v' → v' ≠ v →
    (∀ j b, j ≠ k → s.runs[j]? = some b → v ≠ placeholder b.mongoId) ∧ ∀ w, v ≠ str w

/-- Whenever a run publishes under a key that is set, no other run has set the
key since the publisher found it absent. -/
def Unchallenged (cfg : Settings) (n : Nat) (es : List Event) : Prop :=
  ∀ a k r₀ s₀ s₁ b s e es₂ r won, es = a ++ .run k .ok :: b ++ e :: es₂ → Finds cfg n a k r₀ s₀ s₁ →
    Trace (step cfg) (fun _ _ => True) s₁ b s → Publishes s e k r won →
    keyed r.sig.componentId s.stores = true →
    tally (step cfg) (setsBesides k r.sig.componentId) s₁ b = 0

variable {cfg : Settings} {s t : World} {e : Event}

/-- The ids of the documents are distinct, and a dedup key holds a placeholder
or a number, whatever fails. -/
structure Named (s : World) : Prop where
  oids : (s.runs.map Run.mongoId).Nodup
  values : ∀ c v, s.stores.redis.strings (dedupKey c) = some v →
    (∃ m, v = placeholder m) ∨ ∃ w, v = str w

theorem mongoIds_step (h : (s.runs.map Run.mongoId).Nodup) (hs : step cfg s e = some t) :
    (t.runs.map Run.mongoId).Nodup := by
  have hended {k : Nat} {r : Run} (status : Workers.Status) (hk : s.runs[k]? = some r) :
      ((s.runs.set k { r with status }).map Run.mongoId).Nodup := by
    rwa [map_set hk (show Run.mongoId { r with status } = r.mongoId from rfl)]
  have hmove := step_move hs
  generalize t.stores = st, t.runs = runs, t.requests = requests at hmove
  cases hmove with
  | get oid sig hoid => exact Library.Tables.nodup_push h hoid
  | run o hk _ _ => rwa [map_set hk (attempt_mongoId _ o _ _)]
  | finish w hk _ _ => exact hended .returned hk
  | cancelRun hk _ => exact hended .cancelled hk
  | quiet | request | abortRequest | call | expire | burnWorkItemId | burnRcaId => exact h

theorem values_set {st : Stores} (h : ∀ c v, st.redis.strings (dedupKey c) = some v →
    (∃ m, v = placeholder m) ∨ ∃ w, v = str w) {strings : String → Option String} {key value : String}
    (hvalue : (∃ m, value = placeholder m) ∨ ∃ w, value = str w)
    (hset : strings = Function.update st.redis.strings key (some value)) :
    ∀ c v, strings (dedupKey c) = some v → (∃ m, v = placeholder m) ∨ ∃ w, v = str w := by
  intro c v hv
  by_cases hc : dedupKey c = key
  · rw [hset, hc, Function.update_self] at hv
    exact Option.some.inj hv ▸ hvalue
  · rw [hset, Function.update_of_ne hc] at hv
    exact h c v hv

theorem named_step (h : Named s) (hs : step cfg s e = some t) : Named t := by
  refine ⟨mongoIds_step h.oids hs, ?_⟩
  rcases step_stores hs with htame | ⟨_, r, _, _, _, hstep⟩
  · intro c v hv
    rcases htame.keys (dedupKey c) with hkey | hkey
    · exact h.values c v (hkey ▸ hv)
    · cases hkey.symm.trans hv
  · rcases runStep_keys hstep with ⟨_, _, _, hkeys⟩ | ⟨_, w, _, _, _, _, hkeys⟩ | ⟨hkeys, _⟩
    · exact values_set h.values (.inl ⟨_, rfl⟩) hkeys
    · exact values_set h.values (.inr ⟨w, rfl⟩) hkeys
    · rw [hkeys]
      exact h.values

theorem named_trace {n : Nat} {es : List Event}
    (h : Trace (step cfg) (fun _ _ => True) (init n) es s) : Named s :=
  h.invariant Named ⟨List.nodup_nil, fun _ _ hv => by cases hv⟩ fun _ _ _ hnamed _ hs =>
    named_step hnamed hs

theorem Named.gone (h : Named s) {c : String} (hget : getOpenWorkItem s.stores.redis c = .ok none) :
    keyed c s.stores = false := by
  cases hkey : s.stores.redis.strings (dedupKey c) with
  | none => simp [keyed, hkey]
  | some v =>
      rcases h.values c v hkey with ⟨m, rfl⟩ | ⟨w, rfl⟩
      · rw [Workers.getOpenWorkItem_placeholder hkey] at hget
        cases hget
      · rw [getOpenWorkItem_str hkey] at hget
        cases hget

theorem keyed_some {c v : String} {st : Stores} (h : st.redis.strings (dedupKey c) = some v) :
    keyed c st = true := by
  rw [keyed, h]
  rfl

theorem keyed_none {c : String} {st : Stores} :
    keyed c st = false ↔ st.redis.strings (dedupKey c) = none := by
  rw [keyed, Option.isSome_eq_false_iff, Option.isNone_iff_eq_none]

/-- An operation that sets a key does so, with a placeholder or a number. -/
theorem perform_sets (now : Int) {st : Stores} {r : Run} (h : setsKey st r = true) :
    ∃ v, (v = placeholder r.mongoId ∨ ∃ w, v = str w) ∧
      (r.perform now st).1.redis.strings = Function.update st.redis.strings (keyOf r) (some v) := by
  cases hpc : r.pc with
  | claim =>
      simp only [setsKey, hpc, Bool.not_eq_true', keyed_none] at h
      simp only [Run.perform, hpc, setNx_none h]
      exact ⟨_, .inl rfl, rfl⟩
  | publish won w =>
      refine ⟨str w, .inr ⟨w, rfl⟩, ?_⟩
      cases won with
      | true =>
          simp only [setsKey, hpc] at h
          obtain ⟨v, hv⟩ := Option.isSome_iff_exists.mp h
          simp only [Run.perform, hpc, setXx_some hv]
          rfl
      | false =>
          simp only [Run.perform, hpc]
          rfl
  | _ =>
      rw [setsKey, hpc] at h
      cases h

theorem perform_keeps (now : Int) {st : Stores} {r : Run} (h : setsKey st r = false) :
    (r.perform now st).1.redis.strings = st.redis.strings := by
  rcases runStep_keys (perform_runStep now st r) with ⟨hpc, _, hkey, _⟩ | ⟨won, w, hpc, _, _, hkey, _⟩ |
    ⟨hkeys, _⟩
  · rw [setsKey, hpc, keyed_none.mpr hkey] at h
    cases h
  · cases won with
    | true =>
        obtain ⟨v, hv⟩ := hkey rfl
        rw [setsKey, hpc, keyed_some hv] at h
        cases h
    | false =>
        rw [setsKey, hpc] at h
        cases h
  · exact hkeys

theorem setter_run {k : Nat} {o : Outcome} {r : Run} (hk : s.runs[k]? = some r) (c : String) :
    setter c s (.run k o) =
      if r.sig.componentId = c ∧ takesEffect o ∧ setsKey s.stores r then some k else none := by
  simp only [setter, hk]

/-- Under the key of c, an event of a run sets a value or leaves the one there. -/
theorem stores_of_attempt (r : Run) (o : Outcome) (now : Int) (st : Stores) :
    (r.attempt o now st).1 = if takesEffect o then (r.perform now st).1 else st := by
  cases o with
  | ok | lost | fail => rfl

theorem run_key {k : Nat} {o : Outcome} {r : Run} (hs : step cfg s (.run k o) = some t)
    (hk : s.runs[k]? = some r) (c : String) :
    (setter c s (.run k o) = some k ∧ ∃ v, (v = placeholder r.mongoId ∨ ∃ w, v = str w) ∧
        t.stores.redis.strings (dedupKey c) = some v) ∨
      setter c s (.run k o) = none ∧
        t.stores.redis.strings (dedupKey c) = s.stores.redis.strings (dedupKey c) := by
  have hnone (hcond : ¬ (r.sig.componentId = c ∧ takesEffect o = true ∧ setsKey s.stores r = true))
      (hkeep : t.stores.redis.strings (dedupKey c) = s.stores.redis.strings (dedupKey c)) :
      setter c s (.run k o) = none ∧
        t.stores.redis.strings (dedupKey c) = s.stores.redis.strings (dedupKey c) :=
    ⟨by rw [setter_run hk, if_neg hcond], hkeep⟩
  obtain ⟨b, _, hb, _, _, ⟨o', ho, hst, _⟩ | ⟨hst, _, _, ⟨_, w, hpc⟩ | ⟨_, he⟩⟩⟩ := own_step hs rfl
  · cases Option.some.inj (hk.symm.trans hb)
    cases ho
    rw [stores_of_attempt] at hst
    cases heffective : takesEffect o with
    | false =>
        rw [heffective] at hst
        exact .inr (hnone (fun hcond => by cases heffective.symm.trans hcond.2.1) (by rw [hst]; rfl))
    | true =>
        rw [heffective, if_pos rfl] at hst
        cases hsets : setsKey s.stores r with
        | false =>
            refine .inr (hnone (fun hcond => by cases hsets.symm.trans hcond.2.2) ?_)
            rw [hst, perform_keeps s.clock hsets]
        | true =>
            obtain ⟨v, hv, hkeys⟩ := perform_sets s.clock hsets
            rw [← hst] at hkeys
            by_cases hc : r.sig.componentId = c
            · refine .inl ⟨by rw [setter_run hk, if_pos ⟨hc, heffective, hsets⟩], v, hv, ?_⟩
              rw [hkeys, keyOf, hc, Function.update_self]
            · refine .inr (hnone (fun hcond => hc hcond.1) ?_)
              rw [hkeys, keyOf, Function.update_of_ne fun he => hc (dedupKey_injective he).symm]
  · cases Option.some.inj (hk.symm.trans hb)
    refine .inr (hnone ?_ (by rw [hst]))
    rintro ⟨_, _, hsets⟩
    rw [setsKey, hpc] at hsets
    cases hsets
  · cases he

def Held (won : Bool) (m : String) (others : Nat) (key : Option String) : Prop :=
  if others = 0 then key = none ∨ won = true ∧ key = some (placeholder m)
  else ∀ v, key = some v → v ≠ placeholder m

def past (r : Run) : Bool :=
  decide (r.status ≠ .running) || match r.pc with
    | .insertSignal | .claim | .getOpenWorkItem | .create _ | .publish _ _ => false
    | _ => true

/-- Where run k stands after it found the key absent, others being the number of
times that another run has set the key since. -/
def Since (k : Nat) (won : Bool) (r₀ : Run) (others : Nat) (s : World) : Prop :=
  ∃ r, s.runs[k]? = some r ∧ r.sig = r₀.sig ∧ r.mongoId = r₀.mongoId ∧
    (past r = true ∨ (r.pc = .create won ∨ ∃ w, r.pc = .publish won w) ∧
      Held won r₀.mongoId others (s.stores.redis.strings (keyOf r₀)))

theorem Held.gone {won : Bool} {m : String} (others : Nat) : Held won m others none := by
  unfold Held
  split
  · exact .inl rfl
  · exact fun v hv => by cases hv

theorem Held.taken {won : Bool} {m v : String} (others : Nat) (hv : v ≠ placeholder m) :
    Held won m (others + 1) (some v) := by
  intro u hu
  cases hu
  exact hv

/-- Under the key of c, an event sets a value on behalf of a run, or leaves the
one there, or deletes it. -/
theorem key_step (hs : step cfg s e = some t) (c : String) :
    (∃ k r v, runIndex e = some k ∧ s.runs[k]? = some r ∧ setter c s e = some k ∧
        setsKey s.stores r = true ∧ (v = placeholder r.mongoId ∨ ∃ w, v = str w) ∧
        t.stores.redis.strings (dedupKey c) = some v) ∨
      setter c s e = none ∧
        (t.stores.redis.strings (dedupKey c) = s.stores.redis.strings (dedupKey c) ∨
          t.stores.redis.strings (dedupKey c) = none) := by
  by_cases hrun : ∃ k o, e = .run k o
  · obtain ⟨k, o, rfl⟩ := hrun
    obtain ⟨r, _, hk, _⟩ := own_step hs rfl
    rcases run_key hs hk c with ⟨hsetter, v, hv, hkey⟩ | ⟨hsetter, hkey⟩
    · refine .inl ⟨k, r, v, rfl, hk, hsetter, ?_, hv, hkey⟩
      rw [setter_run hk] at hsetter
      split at hsetter
      · rename_i hcond
        exact hcond.2.2
      · cases hsetter
    · exact .inr ⟨hsetter, .inl hkey⟩
  · have hsetter : setter c s e = none := by
      cases e with
      | run k o => exact absurd ⟨k, o, rfl⟩ hrun
      | _ => rfl
    refine .inr ⟨hsetter, ?_⟩
    rcases step_stores hs with htame | ⟨k, _, _, hk, _⟩
    · exact htame.keys (dedupKey c)
    · obtain ⟨_, _, _, _, _, ⟨o, he, _⟩ | ⟨hst, _⟩⟩ := own_step hs hk
      · exact absurd ⟨k, o, he⟩ hrun
      · exact .inl (by rw [hst])

theorem attempt_place (now : Int) (st : Stores) (r : Run) (o : Outcome) :
    ∃ st', RunStep now st r st' (r.attempt o now st).2 := by
  cases o with
  | ok => exact ⟨_, perform_runStep now st r⟩
  | fail e => exact ⟨_, handle_runStep now st r e⟩
  | lost e => exact ⟨_, handle_runStep now st r e⟩

theorem past_attempt {r : Run} (h : past r = true) (hr : r.status = .running) (o : Outcome) (now : Int)
    (st : Stores) : past (r.attempt o now st).2 = true := by
  obtain ⟨st', hstep⟩ := attempt_place now st r o
  have hplace {r' : Run} (hpc : r'.pc = r.pc) : past r' = true := by
    rw [past, hpc, Bool.or_eq_true]
    exact .inr (by simpa [past, hr] using h)
  generalize (r.attempt o now st).2 = r' at hstep
  cases hstep with
  | stay _ _ _ hpc => exact hplace hpc
  | insert hpc | win hpc | lose hpc | create _ hpc | publishGone _ hpc | publishOver _ _ hpc
  | publishAnyway _ hpc | findGone hpc | findItem _ hpc => simp [past, hr, hpc] at h
  | push | dispatch | increment | link | backfill | skipBackfill | meter => simp [past]

theorem past_publish {r : Run} {won : Bool} {w : Int} (h : r.pc = .publish won w) (o : Outcome)
    (now : Int) (st : Stores) : past (r.attempt o now st).2 = true := by
  cases o with
  | ok => cases won <;> simp [Run.attempt, Run.perform, h, Workers.Run.resume, past]
  | fail e => simp [Run.attempt, Run.handle, h, past]
  | lost e => simp [Run.attempt, Run.handle, h, past]

theorem create_attempt {r : Run} {won : Bool} (h : r.pc = .create won) (o : Outcome) (now : Int)
    (st : Stores) : (r.attempt o now st).2.pc = .create won ∨
      ∃ w, (r.attempt o now st).2.pc = .publish won w := by
  have hretry (e : Exc) : (r.handle e).pc = .create won := by
    simp only [Run.handle, h]
    exact (retryOr_stays r e _).2.2.trans h
  cases o with
  | ok =>
      simp only [Run.attempt, Run.perform, h, Workers.Run.resume]
      exact .inr ⟨_, rfl⟩
  | fail e => exact .inl (hretry e)
  | lost e => exact .inl (hretry e)

theorem since_own {k others : Nat} {won : Bool} {r₀ : Run} (h : Since k won r₀ others s)
    (hs : step cfg s e = some t) (hk : runIndex e = some k) : Since k won r₀ others t := by
  obtain ⟨r, hr, hsig, hid, hplace⟩ := h
  obtain ⟨b, b', hb, hrun, hb', hmove⟩ := own_step hs hk
  cases Option.some.inj (hr.symm.trans hb)
  rcases hmove with ⟨o, rfl, _, rfl⟩ | ⟨_, status, rfl, hstatus⟩
  · refine ⟨_, hb', (attempt_sig r o _ _).1.trans hsig, (attempt_mongoId r o _ _).trans hid, ?_⟩
    rcases hplace with hpast | ⟨hpc | ⟨w, hpc⟩, hheld⟩
    · exact .inl (past_attempt hpast hrun o _ _)
    · refine .inr ⟨create_attempt hpc o _ _, ?_⟩
      have hsets : setsKey s.stores r = false := by rw [setsKey, hpc]
      rw [keyOf] at hheld ⊢
      rcases run_key hs hr r₀.sig.componentId with ⟨hsetter, _⟩ | ⟨_, hkey⟩
      · rw [setter_run hr, hsets] at hsetter
        simp at hsetter
      · rwa [hkey]
    · exact .inl (past_publish hpc o _ _)
  · refine ⟨_, hb', hsig, hid, .inl ?_⟩
    have hended : status ≠ .running := by
      rcases hstatus with ⟨rfl, _⟩ | ⟨rfl, _⟩ <;> exact fun he => by cases he
    simp [past, hended]

theorem since_other {k others : Nat} {won : Bool} {r₀ : Run} (h : Since k won r₀ others s)
    (hnamed : Named s) (hs : step cfg s e = some t) (hk : runIndex e ≠ some k) :
    Since k won r₀ (others + setsBesides k r₀.sig.componentId s e t) t := by
  obtain ⟨r, hr, hsig, hid, hplace⟩ := h
  refine ⟨r, other_step hs hk hr, hsig, hid, hplace.imp_right fun ⟨hpc, hheld⟩ => ⟨hpc, ?_⟩⟩
  rw [keyOf] at hheld ⊢
  rcases key_step hs r₀.sig.componentId with ⟨j, b, v, hj, hb, hsetter, _, hv, hkey⟩ |
    ⟨hsetter, hkey | hkey⟩
  · have hjk : j ≠ k := fun he => hk (he ▸ hj)
    have hone : setsBesides k r₀.sig.componentId s e t = 1 := by simp [setsBesides, hsetter, hjk]
    rw [hone, hkey]
    refine .taken others ?_
    rcases hv with rfl | ⟨w, rfl⟩
    · intro heq
      have hid' : b.mongoId = r.mongoId := (Workers.placeholder_injective heq).trans hid.symm
      exact hjk (slot_unique hnamed.oids hb hr hid')
    · exact fun heq => Workers.placeholder_ne_str _ _ heq.symm
  · have hzero : setsBesides k r₀.sig.componentId s e t = 0 := by simp [setsBesides, hsetter]
    rwa [hzero, hkey]
  · rw [hkey]
    exact .gone _

theorem setsBesides_own {k : Nat} (hk : runIndex e = some k) (c : String) :
    setsBesides k c s e t = 0 := by
  have hsetter : ∀ j, setter c s e = some j → j = k := by
    intro j hj
    cases e with
    | run i o =>
        cases hk
        simp only [setter] at hj
        split at hj
        · cases hj
        · split at hj
          · exact (Option.some.inj hj).symm
          · cases hj
    | _ => cases hj
  cases hset : setter c s e with
  | none => simp [setsBesides, hset]
  | some j => simp [setsBesides, hset, hsetter j hset]

theorem since_step {k others : Nat} {won : Bool} {r₀ : Run} (h : Since k won r₀ others s)
    (hnamed : Named s) (hs : step cfg s e = some t) :
    Since k won r₀ (others + setsBesides k r₀.sig.componentId s e t) t := by
  by_cases hk : runIndex e = some k
  · rw [setsBesides_own hk]
    exact since_own h hs hk
  · exact since_other h hnamed hs hk

/-- The way on from the key being absent: with SET NX the claim is won. -/
theorem since_found {n k : Nat} {a : List Event} {r₀ : Run} {s₀ s₁ : World}
    (h : Finds cfg n a k r₀ s₀ s₁) : Since k (decide (r₀.pc = .claim)) r₀ 0 s₁ := by
  have habsent := h.absent
  simp only [findsAbsent, true_and, Bool.and_eq_true, decide_eq_true_eq, Bool.not_eq_true',
    keyed_none] at habsent
  obtain ⟨hpc, hkey⟩ := habsent
  obtain ⟨_, hst, hr⟩ := own_run h.found h.slot fun w hw => by
    rcases hpc with hpc | hpc <;> cases hpc.symm.trans hw
  refine ⟨_, hr, (attempt_sig r₀ .ok _ _).1, attempt_mongoId r₀ .ok _ _, .inr ?_⟩
  rw [hst]
  rcases hpc with hpc | hpc
  · simp only [Run.attempt, Run.perform, hpc, setNx_none hkey, Workers.Run.resume]
    exact ⟨.inl rfl, .inr ⟨rfl, Function.update_self ..⟩⟩
  · simp only [Run.attempt, Run.perform, hpc, getOpenWorkItem_none hkey, Workers.Run.resume]
    exact ⟨.inl rfl, .inl hkey⟩

theorem since_trace {n k : Nat} {a b : List Event} {r₀ : Run} {s₀ s₁ : World}
    (h : Finds cfg n a k r₀ s₀ s₁) (hb : Trace (step cfg) (fun _ _ => True) s₁ b s) :
    Since k (decide (r₀.pc = .claim)) r₀ (tally (step cfg) (setsBesides k r₀.sig.componentId) s₁ b) s := by
  have hstart : Trace (step cfg) (fun _ _ => True) (init n) (a ++ [.run k .ok]) s₁ :=
    h.trace.next trivial h.found
  refine hb.invariant_past (fun b s => Since k (decide (r₀.pc = .claim)) r₀
    (tally (step cfg) (setsBesides k r₀.sig.componentId) s₁ b) s) (since_found h) ?_
  intro b s e t hb hsince _ hs
  rw [hb.tally_next hs]
  exact since_step hsince (named_trace (hstart.trans hb)) hs

def Unpublished (won : Bool) (r : Run) : Prop := r.pc = .create won ∨ ∃ w, r.pc = .publish won w

theorem unpublished_handle {r : Run} {exc : Exc} {won : Bool} (h : Unpublished won (r.handle exc)) :
    Unpublished won r := by
  rcases handle_pc r exc with hsame | hswallows
  · rwa [Unpublished, hsame] at h
  · cases hpc : r.pc with
    | dispatch | backfill => simp [Unpublished, Run.handle, hpc] at h
    | _ =>
        rw [hpc] at hswallows
        cases hswallows

theorem unpublished_attempt {r : Run} {won : Bool} (hnamed : Named s) {now : Int}
    (h : Unpublished won (r.attempt .ok now s.stores).2) :
    Unpublished won r ∨ findsAbsent r.sig.componentId s.stores r = true := by
  have hstep : RunStep now s.stores r (r.attempt .ok now s.stores).1 (r.attempt .ok now s.stores).2 :=
    perform_runStep now s.stores r
  generalize (r.attempt .ok now s.stores).1 = st', (r.attempt .ok now s.stores).2 = r' at hstep h
  cases hstep with
  | stay _ _ _ hsame => exact .inl (by rwa [Unpublished, hsame] at h)
  | win hclaim hkey => exact .inr (by simp [findsAbsent, hclaim, keyed_none.mpr hkey])
  | findGone hget hkey => exact .inr (by simp [findsAbsent, hget, hnamed.gone hkey])
  | create won' hcreate =>
      refine .inl (.inl ?_)
      rcases h with hpc | ⟨w, hpc⟩
      · cases hpc
      · cases hpc
        exact hcreate
  | insert | lose | publishGone | publishOver | publishAnyway | push | dispatch | findItem
  | increment | link | backfill | skipBackfill | meter =>
      rcases h with hpc | ⟨w, hpc⟩ <;> cases hpc

def Found (cfg : Settings) (n : Nat) (es : List Event) (k : Nat) (sig : SignalIn) (s : World) : Prop :=
  ∃ a b r₀ s₀ s₁, es = a ++ .run k .ok :: b ∧ Finds cfg n a k r₀ s₀ s₁ ∧
    Trace (step cfg) (fun _ _ => True) s₁ b s ∧ r₀.sig = sig

theorem Found.later {n k : Nat} {es : List Event} {sig : SignalIn} (h : Found cfg n es k sig s)
    (hs : step cfg s e = some t) : Found cfg n (es ++ [e]) k sig t := by
  obtain ⟨a, b, r₀, s₀, s₁, rfl, hfinds, hb, hsig⟩ := h
  exact ⟨a, b ++ [e], r₀, s₀, s₁, by simp, hfinds, hb.next trivial hs, hsig⟩

/-- A run at its work item, or about to create it, has found the key absent. -/
theorem finds_trace {n : Nat} {es : List Event}
    (h : Trace (step cfg) (fun _ _ => True) (init n) es s) {k : Nat} {r : Run}
    (hk : s.runs[k]? = some r) {won : Bool} (hpc : Unpublished won r) : Found cfg n es k r.sig s := by
  refine h.invariant_past (fun es s => ∀ r, s.runs[k]? = some r → Unpublished won r →
    Found cfg n es k r.sig s) (fun _ hr => by cases hr) ?_ r hk hpc
  intro es s e t htrace hpast _ hs r hr hpc
  have hlater {b : Run} (hb : s.runs[k]? = some b) (hsig : r.sig = b.sig) (hpc : Unpublished won b) :
      Found cfg n (es ++ [e]) k r.sig t := by
    rw [hsig]
    exact (hpast b hb hpc).later hs
  have hmove := step_runMove hs hr
  generalize t.stores = st at hmove
  cases hmove with
  | new _ _ _ hnew =>
      rw [Unpublished, hnew] at hpc
      rcases hpc with hpc | ⟨_, hpc⟩ <;> cases hpc
  | other _ hb => exact hlater hb rfl hpc
  | attempt b o hb _ he _ =>
      subst he
      have hsig := (attempt_sig b o s.clock s.stores).1
      cases o with
      | fail exc => exact hlater hb hsig (unpublished_handle hpc)
      | lost exc => exact hlater hb hsig (unpublished_handle hpc)
      | ok =>
          rcases unpublished_attempt (named_trace htrace) hpc with hpc | habsent
          · exact hlater hb hsig hpc
          · exact ⟨es, [], b, s, t, rfl, ⟨htrace, hb, habsent, hs⟩, .start, hsig.symm⟩
  | finish b w hb hfinish =>
      rcases hpc with hpc | ⟨_, hpc⟩ <;> cases hfinish.symm.trans hpc
  | cancel b hb _ => exact hlater hb rfl hpc

/-- Nothing but a claim or a publish that takes effect gives a key another value. -/
theorem replaced_by_publish {k : Nat} (hs : step cfg s e = some t) (hk : runIndex e = some k)
    {key v v' : String} (hv : s.stores.redis.strings key = some v)
    (hv' : t.stores.redis.strings key = some v') (hne : v' ≠ v) :
    ∃ r won, Publishes s e k r won ∧ key = keyOf r := by
  obtain ⟨r, _, hr, hrun, _, ⟨o, rfl, hst, _⟩ | ⟨hst, _⟩⟩ := own_step hs hk
  · have hchanged : t.stores.redis.strings ≠ s.stores.redis.strings := by
      intro heq
      rw [heq, hv] at hv'
      exact hne (Option.some.inj hv').symm
    have heffective : takesEffect o = true ∧ t.stores = (r.perform s.clock s.stores).1 := by
      cases o with
      | ok | lost => exact ⟨rfl, hst⟩
      | fail e =>
          rw [hst] at hchanged
          exact absurd rfl hchanged
    rw [heffective.2] at hchanged hv'
    rcases runStep_keys (perform_runStep s.clock s.stores r) with ⟨_, _, hkey, hkeys⟩ |
      ⟨won, w, hpc, _, _, _, hkeys⟩ | ⟨hkeys, _⟩
    · by_cases hown : key = keyOf r
      · cases hv.symm.trans (hown ▸ hkey)
      · rw [hkeys, Function.update_of_ne hown, hv] at hv'
        exact absurd (Option.some.inj hv').symm hne
    · by_cases hown : key = keyOf r
      · exact ⟨r, won, ⟨⟨o, rfl, heffective.1⟩, hr, hrun, w, hpc⟩, hown⟩
      · rw [hkeys, Function.update_of_ne hown, hv] at hv'
        exact absurd (Option.some.inj hv').symm hne
    · exact absurd hkeys hchanged
  · rw [hst, hv] at hv'
    exact absurd (Option.some.inj hv').symm hne

/-- Where a publish finds its key set, the value is the placeholder of its own
run exactly when no other run has set the key since. -/
theorem published_over_own {n k : Nat} {a b : List Event} {r₀ r : Run} {s₀ s₁ : World} {won : Bool}
    {v : String} (h : Finds cfg n a k r₀ s₀ s₁) (hb : Trace (step cfg) (fun _ _ => True) s₁ b s)
    (hpublishes : Publishes s e k r won) (hv : s.stores.redis.strings (keyOf r) = some v) :
    (tally (step cfg) (setsBesides k r.sig.componentId) s₁ b = 0 ↔ v = placeholder r.mongoId) ∧
      (v = placeholder r.mongoId → r₀.pc = .claim) := by
  obtain ⟨r', hr', hsig, hid, hplace⟩ := since_trace h hb
  cases Option.some.inj (hpublishes.slot.symm.trans hr')
  obtain ⟨w, hpc⟩ := hpublishes.place
  rw [← hsig] at hplace
  rcases hplace with hpast | ⟨hplace, hheld⟩
  · simp [past, hpublishes.running, hpc] at hpast
  · have hkey : keyOf r₀ = keyOf r := by rw [keyOf, keyOf, hsig]
    rw [hkey, hv, ← hid] at hheld
    unfold Held at hheld
    split at hheld
    · rename_i hzero
      rcases hheld with hnone | ⟨hclaim, hvalue⟩
      · cases hnone
      · exact ⟨iff_of_true hzero (Option.some.inj hvalue), fun _ => of_decide_eq_true hclaim⟩
    · rename_i hothers
      exact ⟨iff_of_false hothers (hheld v rfl), fun hown => absurd hown (hheld v rfl)⟩

theorem not_foreign (hnamed : Named s) {k : Nat} {r : Run} (hr : s.runs[k]? = some r) :
    (∀ j b, j ≠ k → s.runs[j]? = some b → placeholder r.mongoId ≠ placeholder b.mongoId) ∧
      ∀ w, placeholder r.mongoId ≠ str w := by
  refine ⟨fun j b hjk hb heq => hjk ?_, fun w => Workers.placeholder_ne_str _ w⟩
  exact slot_unique hnamed.oids hb hr (Workers.placeholder_injective heq).symm

/-- A run overwrites its own placeholder and nothing else exactly as long as no
publisher finds its key set after another run has set it: neither SET XX nor the
plain SET compares the value that it replaces. -/
theorem owners_only_iff (cfg : Settings) (n : Nat) (es : List Event) :
    OwnersOnly cfg n es ↔ Unchallenged cfg n es := by
  constructor
  · rintro ⟨hown, _⟩ a k r₀ s₀ s₁ b s e es₂ r won hes hfinds hb hpublishes hkeyed
    obtain ⟨v, hv⟩ := Option.isSome_iff_exists.mp hkeyed
    have htrace : Trace (step cfg) (fun _ _ => True) (init n) (a ++ .run k .ok :: b) s :=
      hfinds.trace.trans (.cons trivial hfinds.found hb)
    have hvalue := (hown _ e es₂ s k r won v hes htrace hpublishes hv).1
    exact (published_over_own hfinds hb hpublishes hv).1.mpr hvalue
  · intro hunchallenged
    have hpublish : ∀ es₁ e es₂ s k r won v, es = es₁ ++ e :: es₂ →
        Trace (step cfg) (fun _ _ => True) (init n) es₁ s → Publishes s e k r won →
        s.stores.redis.strings (keyOf r) = some v →
        v = placeholder r.mongoId ∧ ∃ a b r₀ s₀ s₁, es₁ = a ++ .run k .ok :: b ∧
          Finds cfg n a k r₀ s₀ s₁ ∧ r₀.pc = .claim := by
      intro es₁ e es₂ s k r won v hes htrace hpublishes hv
      obtain ⟨a, b, r₀, s₀, s₁, rfl, hfinds, hb, _⟩ :=
        finds_trace htrace hpublishes.slot (.inr hpublishes.place)
      have hzero := hunchallenged a k r₀ s₀ s₁ b s e es₂ r won hes hfinds hb hpublishes (keyed_some hv)
      obtain ⟨halone, hclaim⟩ := published_over_own hfinds hb hpublishes hv
      have hvalue := halone.mp hzero
      exact ⟨hvalue, a, b, r₀, s₀, s₁, rfl, hfinds, hclaim hvalue⟩
    refine ⟨hpublish, ?_⟩
    intro es₁ e es₂ s t k key v v' hes htrace hs hk hv hv' hne
    obtain ⟨r, won, hpublishes, rfl⟩ := replaced_by_publish hs hk hv hv' hne
    obtain ⟨rfl, _⟩ := hpublish es₁ e es₂ s k r won v hes htrace hpublishes hv
    exact not_foreign (named_trace htrace) hpublishes.slot

def claimTaken : List Event :=
  [.offer (errorSignal "db"), .offer (errorSignal "db"), .get "a", .get "b"] ++ runOn 0 3 ++
    [.expire (dedupKey "db")] ++ runOn 1 2

/-- The first run then publishes over the claim of the second. -/
theorem claim_overwritten :
    ∃ s, Trace (step {}) (fun _ _ => True) (init 2) (claimTaken ++ [.run 0 .ok]) s ∧
      ¬ OwnersOnly {} 2 (claimTaken ++ [.run 0 .ok]) := by
  obtain ⟨s, hs, hp⟩ := trace_of_replay (step {}) (fun _ _ => True) (init 2) claimTaken
    (fun s => (s.runs[0]?).any fun r : Run => decide (r.status = .running) &&
      decide (r.pc = .publish true 1) && decide (r.mongoId = "a") &&
      decide (s.stores.redis.strings (keyOf r) = some (placeholder "b"))) (by decide +kernel)
  obtain ⟨t, ht, _⟩ := trace_of_replay (step {}) (fun _ _ => True) (init 2)
    (claimTaken ++ [.run 0 .ok]) (fun _ => true) (by decide +kernel)
  obtain ⟨r, hr, hrun⟩ := (Option.any_eq_true _ _).mp hp
  simp only [Bool.and_eq_true, decide_eq_true_eq] at hrun
  obtain ⟨⟨⟨hstatus, hpc⟩, hid⟩, hkey⟩ := hrun
  refine ⟨t, ht, fun howners => ?_⟩
  have hpublishes : Publishes s (.run 0 .ok) 0 r true := ⟨⟨.ok, rfl, rfl⟩, hr, hstatus, 1, hpc⟩
  have hvalue := (howners.own claimTaken _ [] s 0 r true _ rfl hs hpublishes hkey).1
  rw [hid] at hvalue
  exact absurd (Workers.placeholder_injective hvalue) (by decide)

end Ims.DedupOwners
