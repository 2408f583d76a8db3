import Ims.Library.Expiry
import Ims.DedupOwners
import Ims.Draining

namespace Ims.TimedWindows

open Library.Text Library.Runs Library.Slots Library.Expiry Models RedisCache Ingestion Service WorkerSteps
  ServiceSteps WorkerMoves WorkerFrames Rows Integrity DedupWindows DedupOwners
open Workers (Stores Run Pc Outcome placeholder)
open LifeCycle (takesEffect)
open QueueConservation (running)
open IncidentsApi (Request)

/-- The SET that a run awaits and the condition it has beside its
ex=dedup_window_seconds. -/
def command (r : Run) : Option (Mode × String) :=
  match r.pc with
  | .claim => some (.nx, placeholder r.mongoId)
  | .publish true w => some (.xx, str w)
  | .publish false w => some (.always, str w)
  | .insertSignal | .create _ | .pushLiveFeed _ | .dispatch _ | .getOpenWorkItem | .increment _
  | .addLink _ | .backfill _ | .upsertMetric _ | .finish _ => none

def readsKey : Pc → Bool
  | .claim | .publish _ _ | .getOpenWorkItem => true
  | .insertSignal | .create _ | .pushLiveFeed _ | .dispatch _ | .increment _ | .addLink _
  | .backfill _ | .upsertMetric _ | .finish _ => false

/-- The service with the clock of Redis, counted in the unit of the time to
live, and the string keys with their deadlines. -/
structure Timed where
  world : World
  now : Nat
  keys : Store String String

def start (workerCount : Nat) : Timed where
  world := init workerCount
  now := 0
  keys := fun _ => none

inductive TimedEvent
  | service (e : Event)
  | pass (time : Nat)

def runKeys (ttl : Nat) (s : Timed) (r : Run) : Store String String :=
  match command r with
  | none => s.keys
  | some (mode, value) => put mode s.keys (keyOf r) ⟨value, s.now + ttl⟩

def requestKeys (s : Timed) (q : Request) : Store String String :=
  match q.pc with
  | .clearDedup _ wi _ => delete s.keys (dedupKey wi.componentId)
  | _ => s.keys

def keysAfter (ttl : Nat) (s : Timed) : Event → Store String String
  | .run k o => if takesEffect o then (s.world.runs[k]?).elim s.keys (runKeys ttl s) else s.keys
  | .request k o =>
      if takesEffect o then (s.world.requests[k]?).elim s.keys (requestKeys s) else s.keys
  | .expire key => delete s.keys key
  | _ => s.keys

/-- A key vanishes no earlier than its deadline, and is not read after it. -/
def inTime (s : Timed) : Event → Bool
  | .expire key => overdue s.now (s.keys key)
  | .run k _ =>
      (s.world.runs[k]?).all fun r => !(readsKey r.pc && overdue s.now (s.keys (keyOf r)))
  | _ => true

def timedStep (cfg : Settings) (ttl : Nat) (s : Timed) : TimedEvent → Option Timed
  | .service e =>
      if inTime s e then
        (step cfg s.world e).map fun world => { s with world, keys := keysAfter ttl s e }
      else none
  | .pass time => some { s with now := s.now + time }

def serviceEvent : TimedEvent → Option Event
  | .service e => some e
  | .pass _ => none

variable {cfg : Settings} {ttl n : Nat} {s t : Timed}

theorem timedStep_cases {e : TimedEvent} (h : timedStep cfg ttl s e = some t) :
    (∃ time, e = .pass time ∧ t = { s with now := s.now + time }) ∨
      ∃ e', e = .service e' ∧ inTime s e' = true ∧ step cfg s.world e' = some t.world ∧
        t.now = s.now ∧ t.keys = keysAfter ttl s e' := by
  cases e with
  | pass time =>
      cases h
      exact .inl ⟨time, rfl, rfl⟩
  | service e =>
      simp only [timedStep] at h
      split at h
      · next htime =>
        obtain ⟨world, hworld, rfl⟩ := Option.map_eq_some_iff.mp h
        exact .inr ⟨e, rfl, htime, hworld, rfl, rfl⟩
      · cases h

/-- A run in time is a run of the service, so what holds of those holds of it. -/
theorem timed_world {ok : Timed → TimedEvent → Prop} {p : World → Event → Prop}
    {es : List TimedEvent} (h : Trace (timedStep cfg ttl) ok (start n) es s)
    (hok : ∀ s e, ok s (.service e) → p s.world e) :
    Trace (step cfg) p (init n) (es.filterMap serviceEvent) s.world := by
  refine h.project Timed.world serviceEvent fun s e t he hs => ?_
  rcases timedStep_cases hs with ⟨time, rfl, rfl⟩ | ⟨e', rfl, _, hworld, _, _⟩
  · rfl
  · exact ⟨hok s e' he, hworld⟩

theorem values_put (m : Mode) (keys : Store String String) (key : String) (entry : Entry String) :
    values (put m keys key entry) =
      if m.admits (values keys key).isSome then
        Function.update (values keys) key (some entry.value)
      else values keys := by
  have hsome : (values keys key).isSome = (keys key).isSome := by simp [values]
  rw [hsome]
  cases h : m.admits (keys key).isSome with
  | true => rw [put_of_admits h, values_update, if_pos rfl, Option.map_some]
  | false => rw [put_of_not h, if_neg Bool.false_ne_true]

/-- The table of the commands agrees with what the operations do. -/
theorem perform_command (r : Run) (now : Int) (st : Stores) :
    (r.perform now st).1.redis.strings = (command r).elim st.redis.strings fun c =>
      if c.1.admits (st.redis.strings (keyOf r)).isSome then
        Function.update st.redis.strings (keyOf r) (some c.2)
      else st.redis.strings := by
  have hkeep (h : command r = none) :
      (r.perform now st).1.redis.strings = st.redis.strings := by
    refine perform_keeps now ?_
    cases hpc : r.pc with
    | claim | publish won =>
        first | cases won | skip
        all_goals
          rw [command, hpc] at h
          cases h
    | _ => rw [setsKey, hpc]
  cases hpc : r.pc with
  | claim =>
      cases hkey : st.redis.strings (keyOf r) with
      | none =>
          rw [keyOf] at hkey
          simp [Run.perform, command, hpc, setNx_none hkey, Redis.set, keyOf, Mode.admits]
      | some v =>
          rw [keyOf] at hkey
          simp [Run.perform, command, hpc, setNx_some hkey, Mode.admits]
  | publish won w =>
      cases won with
      | true =>
          cases hkey : st.redis.strings (keyOf r) with
          | none =>
              rw [keyOf] at hkey
              simp [Run.perform, command, hpc, setXx_none hkey, Mode.admits]
          | some v =>
              rw [keyOf] at hkey
              simp [Run.perform, command, hpc, setXx_some hkey, Redis.set, keyOf, Mode.admits]
      | false => simp [Run.perform, command, hpc, Redis.set, keyOf, Mode.admits]
  | _ =>
      have hnone : command r = none := by rw [command, hpc]
      rw [hkeep hnone, hnone, Option.elim_none]

theorem values_run (h : values s.keys = s.world.stores.redis.strings) (r : Run) (now : Int) :
    values (runKeys ttl s r) = (r.perform now s.world.stores).1.redis.strings := by
  rw [perform_command]
  unfold runKeys
  cases hcommand : command r with
  | none => rw [h, Option.elim_none]
  | some c =>
      obtain ⟨mode, value⟩ := c
      rw [values_put, h, Option.elim_some]

theorem values_request (h : values s.keys = s.world.stores.redis.strings) (q : Request) (now : Int) :
    values (requestKeys s q) = (q.perform now s.world.stores).1.redis.strings := by
  cases hpc : q.pc with
  | clearDedup w wi result =>
      simp only [requestKeys, hpc, Request.perform, clearDedup, Redis.delete]
      rw [delete, values_update, h, Option.map_none]
  | _ =>
      have hkeys : requestKeys s q = s.keys := by rw [requestKeys, hpc]
      rw [hkeys, h]
      have heffect := ApiSteps.perform_effect now s.world.stores q
      generalize (q.perform now s.world.stores).1 = st at heffect
      cases heffect with
      | clearDedup w wi result hpc' => cases hpc.symm.trans hpc'
      | _ => rfl

theorem request_stores (q : Request) (o : Outcome) (now : Int) (st : Stores) :
    (q.attempt o now st).1 = if takesEffect o then (q.perform now st).1 else st := by
  cases o with
  | ok | lost | fail => rfl

/-- The keys with their deadlines are the string keys of the service. -/
theorem values_step {e : Event} {w : World} (h : values s.keys = s.world.stores.redis.strings)
    (hs : step cfg s.world e = some w) : values (keysAfter ttl s e) = w.stores.redis.strings := by
  have hmove := step_move hs
  generalize w.stores = st, w.runs = runs, w.requests = requests at hmove
  cases hmove with
  | quiet e he =>
      cases e with
      | offer | getTimeout | cancelIdle | setClock => exact h
      | _ => cases he
  | run o hk _ _ =>
      rw [stores_of_attempt]
      simp only [keysAfter, hk, Option.elim_some]
      split
      · exact values_run h _ _
      · exact h
  | finish w hk _ hpc =>
      simp only [keysAfter, hk, Option.elim_some, takesEffect, if_true]
      rw [runKeys, command, hpc]
      exact h
  | request o hk _ =>
      rw [request_stores]
      simp only [keysAfter, hk, Option.elim_some]
      split
      · exact values_request h _ _
      · exact h
  | expire key =>
      rw [keysAfter, delete, values_update, h, Option.map_none]
      rfl
  | get | cancelRun | abortRequest | call | burnWorkItemId | burnRcaId => exact h

/-- An event sets one key with the time to live, removes one, or leaves them. -/
theorem keysAfter_cases (ttl : Nat) (s : Timed) (e : Event) :
    keysAfter ttl s e = s.keys ∨
      (∃ k o r mode value, e = .run k o ∧ s.world.runs[k]? = some r ∧
        command r = some (mode, value) ∧
        keysAfter ttl s e = put mode s.keys (keyOf r) ⟨value, s.now + ttl⟩) ∨
      ∃ key, keysAfter ttl s e = delete s.keys key := by
  cases e with
  | run k o =>
      simp only [keysAfter]
      split
      · cases hk : s.world.runs[k]? with
        | none => exact .inl rfl
        | some r =>
            rw [Option.elim_some, runKeys]
            cases hcommand : command r with
            | none => exact .inl rfl
            | some c => exact .inr (.inl ⟨k, o, r, c.1, c.2, rfl, hk, hcommand, rfl⟩)
      · exact .inl rfl
  | request k o =>
      simp only [keysAfter]
      split
      · cases s.world.requests[k]? with
        | none => exact .inl rfl
        | some q =>
            rw [Option.elim_some, requestKeys]
            split
            · exact .inr (.inr ⟨_, rfl⟩)
            · exact .inl rfl
      · exact .inl rfl
  | expire key => exact .inr (.inr ⟨key, rfl⟩)
  | _ => exact .inl rfl

structure KeysTimed (ttl : Nat) (s : Timed) : Prop where
  values : values s.keys = s.world.stores.redis.strings
  timely : Timely ttl s.now s.keys

theorem keysTimed_start : KeysTimed ttl (start n) := ⟨rfl, fun _ _ h => by cases h⟩

theorem keysTimed_step {e : TimedEvent} (h : KeysTimed ttl s) (hs : timedStep cfg ttl s e = some t) :
    KeysTimed ttl t := by
  rcases timedStep_cases hs with ⟨time, rfl, rfl⟩ | ⟨e', rfl, _, hworld, hnow, hkeys⟩
  · exact ⟨h.values, timely_later h.timely (Nat.le_add_right _ _)⟩
  · refine ⟨hkeys ▸ values_step h.values hworld, ?_⟩
    rw [hnow, hkeys]
    rcases keysAfter_cases ttl s e' with hkeep | ⟨_, _, _, _, _, _, _, _, hput⟩ | ⟨_, hdelete⟩
    · rw [hkeep]
      exact h.timely
    · rw [hput]
      exact timely_put h.timely _ _ _
    · rw [hdelete]
      exact timely_delete h.timely _

theorem keysTimed_trace {ok : Timed → TimedEvent → Prop} {es : List TimedEvent}
    (h : Trace (timedStep cfg ttl) ok (start n) es s) : KeysTimed ttl s :=
  h.invariant (KeysTimed ttl) keysTimed_start fun _ _ _ hkeys _ hs => keysTimed_step hkeys hs

def lapses (c : String) : TimedEvent → Bool
  | .service (.expire key) => decide (key = dedupKey c)
  | .service _ | .pass _ => false

def clears (c : String) (s : Timed) (e : TimedEvent) (t : Timed) : Nat :=
  if keyed c s.world.stores && !keyed c t.world.stores && !lapses c e then 1 else 0

theorem begun_step {e : TimedEvent} (h : KeysTimed ttl s) (hs : timedStep cfg ttl s e = some t)
    (c : String) :
    begun ttl s.now (s.keys (dedupKey c)) + (lapses c e).toNat * ttl ≤
      begun ttl t.now (t.keys (dedupKey c)) := by
  rcases timedStep_cases hs with ⟨time, rfl, rfl⟩ | ⟨e', rfl, htime, _, hnow, hkeys⟩
  · simp only [lapses, Bool.toNat_false, Nat.zero_mul, Nat.add_zero]
    exact begun_later (Nat.le_add_right _ _) _
  · rw [hnow, hkeys]
    by_cases hlapse : lapses c (.service e') = true
    · cases e' with
      | expire key =>
          have hkey : key = dedupKey c := of_decide_eq_true hlapse
          subst hkey
          rw [hlapse, Bool.toNat_true, Nat.one_mul]
          exact begun_expire h.timely htime
      | _ => cases hlapse
    · rw [Bool.eq_false_iff.mpr hlapse, Bool.toNat_false, Nat.zero_mul, Nat.add_zero]
      rcases keysAfter_cases ttl s e' with hkeep | ⟨_, _, _, _, _, _, _, _, hput⟩ | ⟨_, hdelete⟩
      · rw [hkeep]
      · rw [hput]
        exact begun_put h.timely _ _ _ _
      · rw [hdelete]
        exact begun_delete h.timely _ _

/-- The windows of a component that have run out fill no more than the time so far. -/
theorem lapses_rate {ok : Timed → TimedEvent → Prop} {es : List TimedEvent}
    (h : Trace (timedStep cfg ttl) ok (start n) es s) (c : String) :
    es.countP (lapses c) * ttl ≤ s.now := by
  have hwindows : KeysTimed ttl s ∧
      es.countP (lapses c) * ttl ≤ begun ttl s.now (s.keys (dedupKey c)) := by
    refine h.invariant_past (fun es s => KeysTimed ttl s ∧
      es.countP (lapses c) * ttl ≤ begun ttl s.now (s.keys (dedupKey c)))
      ⟨keysTimed_start, by simp⟩ ?_
    rintro es s e t _ ⟨hkeys, hle⟩ _ hs
    refine ⟨keysTimed_step hkeys hs, ?_⟩
    have hstep := begun_step hkeys hs c
    rw [List.countP_append, List.countP_singleton, Nat.add_mul]
    cases he : lapses c e <;> simp only [he, Bool.toNat_true, Bool.toNat_false] at hstep ⊢ <;>
      simp only [if_true, Bool.false_eq_true, if_false] <;> omega
  exact hwindows.2.trans (begun_le hwindows.1.timely _)

def waiting (c : String) (r : Run) : Bool :=
  decide (r.sig.componentId = c ∧ r.pc = .getOpenWorkItem) && running r

/-- The work items created or under way, with those that the runs may create if
the key stays away: the next winner's and one for every run that waits. -/
def openings (c : String) (s : World) : Nat :=
  created c s.stores + s.runs.countP (toCreate c) +
    if keyed c s.stores then 0 else 1 + s.runs.countP (waiting c)

theorem waiting_le (c : String) (runs : List Run) : runs.countP (waiting c) ≤ runs.countP running :=
  List.countP_mono_left fun _ _ h => (Bool.and_eq_true _ _ ▸ h : _ ∧ _).2

/-- One step of a run of the component; n counts its other runs that wait. -/
theorem runStep_openings {now : Int} {st st' : Stores} {r r' : Run} {runs : List Run} {c : String}
    (hstep : RunStep now st r st' r') (hr : r.status = .running) (hkeys : KeysWf st runs)
    (hc : r.sig.componentId = c) (n : Nat) :
    (created c st' + (toCreate c r').toNat +
        if keyed c st' then 0 else 1 + n + (waiting c r').toNat) ≤
      created c st + (toCreate c r).toNat +
        if keyed c st then 0 else 1 + n + (waiting c r).toNat := by
  have hrun : running r = true := Draining.running_iff.mpr hr
  cases hstep with
  | stay _ hsig _ hpc =>
      have htoCreate : (toCreate c r').toNat ≤ (toCreate c r).toNat := by
        cases hpc' : r.pc <;> simp [toCreate, hsig, hpc, hpc', hc, hr]
        exact Bool.toNat_le _
      have hwaiting : (waiting c r').toNat ≤ (waiting c r).toNat := by
        simp only [waiting, hsig, hpc, hrun, Bool.and_true]
        cases decide (r.sig.componentId = c ∧ r.pc = .getOpenWorkItem)
        · simp
        · simpa using Bool.toNat_le _
      split <;> omega
  | win hpc hkey =>
      rw [keyOf, hc] at hkey
      have hkeyed : keyed c st = false := by simp [keyed, hkey]
      rw [keyed_set]
      simp [created, toCreate, hkeyed, hpc, hc, hr]
      omega
  | lose hpc v hkey =>
      rw [keyOf, hc] at hkey
      have hkeyed : keyed c st = true := keyed_some hkey
      simp [toCreate, hkeyed, hpc, hc]
  | findGone hpc hget =>
      rw [hc] at hget
      have hkeyed := keyed_of_gone hkeys hget
      simp [toCreate, waiting, hkeyed, hpc, hc, hr, hrun]
      omega
  | create won hpc =>
      simp [created, keyed, toCreate, waiting, hpc, hc, hr, newWorkItem]
  | publishOver w v hpc hkey =>
      rw [keyed_set]
      simp [created, toCreate, hpc, hc]
  | publishAnyway w hpc =>
      rw [keyed_set]
      simp [created, toCreate, hpc, hc]
  | increment w hpc =>
      rw [created_increment]
      simp [toCreate, waiting, hpc, keyed]
  | findItem w hpc =>
      simp [toCreate, waiting, hpc]
      split <;> omega
  | insert hpc | publishGone _ hpc | push _ hpc | dispatch _ _ hpc | link _ hpc | backfill _ hpc
  | skipBackfill _ hpc | meter _ hpc =>
      simp [toCreate, waiting, hpc, created, keyed, pushLiveFeed, PostgresRepo.upsertMetricBucket]

theorem openings_move {s t : World} {e : Event} {c : String} (hwf : Wf s)
    (hmove : WorkerMove s e t.stores t.runs) (hn : s.runs.countP running ≤ n) :
    openings c t ≤ openings c s + (n + 1) * vanishes c s e t := by
  have hwaiting := waiting_le c s.runs
  unfold openings vanishes
  generalize t.stores = st, t.runs = runs at hmove ⊢
  cases hmove with
  | env st htame =>
      rw [created_origins, htame.origins, ← created_origins]
      rcases htame.keys (dedupKey c) with hkey | hkey
      · have hkeyed : keyed c st = keyed c s.stores := by rw [keyed, hkey, keyed]
        simp [hkeyed]
      · have hkeyed : keyed c st = false := keyed_none.mpr hkey
        rw [hkeyed]
        cases keyed c s.stores <;> simp
        omega
  | get oid sig hoid =>
      simp [List.countP_append, toCreate, waiting]
  | @run k r st r' _ hk hr _ hstep =>
      have hcreate := countP_set hk (toCreate c) r'
      have hwait := countP_set hk (waiting c) r'
      by_cases hc : r.sig.componentId = c
      · obtain ⟨m, hm⟩ : ∃ m, s.runs.countP (waiting c) = m + (waiting c r).toNat := by
          refine ⟨s.runs.countP (waiting c) - (waiting c r).toNat, ?_⟩
          have := countP_le_of_slot hk (waiting c)
          omega
        have hm' : (s.runs.set k r').countP (waiting c) = m + (waiting c r').toNat := by omega
        have hopen := runStep_openings hstep hr hwf.keys hc m
        rw [hm, hm', ← Nat.add_assoc, ← Nat.add_assoc]
        omega
      · obtain ⟨hcreated, hkeyed, htoCreate, _⟩ := runStep_other hstep hc
        have hsame : waiting c r = false := by simp [waiting, hc]
        have hsame' : waiting c r' = false := by simp [waiting, (runStep_sig hstep).1, hc]
        rw [hcreated, hkeyed]
        rw [htoCreate] at hcreate
        rw [hsame, hsame'] at hwait
        have hcount : (s.runs.set k r').countP (waiting c) = s.runs.countP (waiting c) := by omega
        rw [hcount]
        omega

def TimedClean : TimedEvent → Prop
  | .service e => Clean e
  | .pass _ => True

instance : DecidablePred TimedClean
  | .service e => inferInstanceAs (Decidable (Clean e))
  | .pass _ => .isTrue trivial

theorem vanishes_le {e : Event} (c : String) (w : Timed) :
    vanishes c s.world e w.world ≤ (lapses c (.service e)).toNat + clears c s (.service e) w := by
  unfold vanishes clears
  cases lapses c (.service e) <;> simp
  split <;> simp

theorem openings_trace {es : List TimedEvent}
    (h : Trace (timedStep cfg ttl) (fun _ e => TimedClean e) (start n) es s) (c : String) :
    openings c s.world ≤ 1 + (n + 1) *
      (es.countP (lapses c) + tally (timedStep cfg ttl) (clears c) (start n) es) := by
  refine (h.invariant_past (fun es s => Wf s.world ∧ openings c s.world ≤ 1 + (n + 1) *
    (es.countP (lapses c) + tally (timedStep cfg ttl) (clears c) (start n) es)) ⟨wf_init n, ?_⟩ ?_).2
  · simp [openings, created, keyed, start, init, Stores.empty, PostgresRepo.empty, RedisCache.empty]
  · rintro es s e t h ⟨hwf, hle⟩ he hs
    rw [h.tally_next hs, List.countP_append, List.countP_singleton]
    rcases timedStep_cases hs with ⟨time, rfl, rfl⟩ | ⟨e', rfl, _, hworld, _, _⟩
    · refine ⟨hwf, hle.trans (Nat.add_le_add_left (Nat.mul_le_mul_left _ ?_) _)⟩
      omega
    · have hstaff := Draining.staff_trace
        (timed_world (p := fun _ _ => True) h fun _ _ _ => trivial)
      have hmove := openings_move (n := n) (c := c) hwf (step_workerMove hworld he) (by omega)
      have hvanish := Nat.mul_le_mul_left (n + 1) (vanishes_le (s := s) (e := e') c t)
      refine ⟨wf_step hwf hworld he, ?_⟩
      rw [Nat.mul_add] at hle hvanish ⊢
      cases hlapse : lapses c (.service e') <;> simp only [hlapse, Bool.toNat_true,
        Bool.toNat_false] at hvanish ⊢ <;> simp only [if_true, Bool.false_eq_true, if_false,
        Nat.mul_add] <;> omega

/-- The windows of a component that run out last at least the time to live, and
so the work items that it can get are bounded by the time that has passed and
the closings: each end of a window lets in one winner and the runs in flight. -/
theorem items_in_time {es : List TimedEvent}
    (h : Trace (timedStep cfg ttl) (fun _ e => TimedClean e) (start n) es s) (c : String) :
    created c s.world.stores * ttl ≤ ttl +
      (n + 1) * (s.now + tally (timedStep cfg ttl) (clears c) (start n) es * ttl) := by
  have hcreated : created c s.world.stores ≤ openings c s.world := by
    unfold openings
    omega
  have hrate := lapses_rate h c
  calc created c s.world.stores * ttl
      ≤ (1 + (n + 1) * (es.countP (lapses c) +
          tally (timedStep cfg ttl) (clears c) (start n) es)) * ttl :=
        Nat.mul_le_mul_right ttl (hcreated.trans (openings_trace h c))
    _ = ttl + (n + 1) * (es.countP (lapses c) * ttl +
          tally (timedStep cfg ttl) (clears c) (start n) es * ttl) := by
        rw [Nat.add_mul, Nat.one_mul, Nat.mul_assoc, Nat.add_mul (List.countP _ _)]
    _ ≤ _ := Nat.add_le_add_left (Nat.mul_le_mul_left _ (Nat.add_le_add_right hrate _)) _

def winnerDies : List Event :=
  List.replicate 3 (.offer (errorSignal "db")) ++ [.get "a", .get "b", .get "c"] ++ runOn 0 2 ++
    runOn 1 2 ++ runOn 2 2 ++ List.replicate 3 (.run 0 (.fail .storeError))

def oneWindow : List TimedEvent :=
  winnerDies.map .service ++ [.pass 10, .service (.expire (dedupKey "db"))] ++
    (runOn 1 2 ++ runOn 2 2).map .service

theorem items_in_time_one_window : ∃ s : Timed, created "db" s.world.stores = 2 ∧
    created "db" s.world.stores * 10 ≤ 10 +
      (3 + 1) * (s.now + tally (timedStep {} 10) (clears "db") (start 3) oneWindow * 10) := by
  obtain ⟨s, hs, hp⟩ := trace_of_replay (timedStep {} 10) (fun _ e => TimedClean e) (start 3) oneWindow
    (fun s => decide (created "db" s.world.stores = 2)) (by decide +kernel)
  exact ⟨s, of_decide_eq_true hp, items_in_time hs "db"⟩

end Ims.TimedWindows
