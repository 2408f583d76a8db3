import Ims.TimedWindows

namespace Ims.Placeholders

open Library.Text Library.Runs Library.Slots Library.Expiry Models RedisCache Ingestion Service WorkerSteps
  ServiceSteps WorkerMoves WorkerFrames DedupWindows DedupOwners TimedWindows
open Workers (Stores Run Pc Outcome placeholder)
open LifeCycle (takesEffect)
open QueueConservation (running)

def pastClaim : Pc → Bool
  | .insertSignal | .claim => false
  | .create _ | .publish _ _ | .pushLiveFeed _ | .dispatch _ | .getOpenWorkItem | .increment _
  | .addLink _ | .backfill _ | .upsertMetric _ | .finish _ => true

def Claimed (w : World) (m : String) : Prop :=
  ∃ r ∈ w.runs, r.mongoId = m ∧ (running r = true → pastClaim r.pc = true)

theorem runStep_pastClaim {now : Int} {st st' : Stores} {r r' : Run} (h : RunStep now st r st' r')
    (hpc : pastClaim r.pc = true) : pastClaim r'.pc = true := by
  cases h with
  | stay _ _ _ hstay => rw [hstay, hpc]
  | insert hinsert =>
      rw [hinsert] at hpc
      cases hpc
  | _ => rfl

theorem attempt_pastClaim {r : Run} (o : Outcome) (now : Int) (st : Stores)
    (hpc : pastClaim r.pc = true) : pastClaim (r.attempt o now st).2.pc = true := by
  cases o with
  | ok => exact runStep_pastClaim (perform_runStep now st r) hpc
  | fail e => exact runStep_pastClaim (handle_runStep now st r e) hpc
  | lost e => exact runStep_pastClaim (handle_runStep now st r e) hpc

/-- A claim is made once: the run goes on from it or ends. -/
theorem attempt_claim {r : Run} {o : Outcome} (now : Int) (st : Stores) (hpc : r.pc = .claim)
    (ho : takesEffect o = true) (hrun : running (r.attempt o now st).2 = true) :
    pastClaim (r.attempt o now st).2.pc = true := by
  cases o with
  | ok =>
      simp only [Run.attempt, Run.resume, Run.perform, hpc, goOn_pc]
      split <;> rfl
  | fail e => cases ho
  | lost e =>
      simp only [Run.attempt, Run.handle, hpc] at hrun
      cases hrun

variable {cfg : Settings} {ttl n : Nat}

theorem claimed_step {w w' : World} {e : Event} {m : String} (h : Claimed w m)
    (hs : step cfg w e = some w') : Claimed w' m := by
  have hmove := step_move hs
  unfold Claimed at h ⊢
  generalize w'.stores = st, w'.runs = runs, w'.requests = requests at hmove
  cases hmove with
  | get oid sig _ =>
      obtain ⟨r, hr, hrest⟩ := h
      exact ⟨r, List.mem_append_left _ hr, hrest⟩
  | run o hk hr _ =>
      refine exists_set hk (fun hP => ⟨(attempt_mongoId _ o _ _).trans hP.1, fun _ => ?_⟩) h
      exact attempt_pastClaim o _ _ (hP.2 (Draining.running_iff.mpr hr))
  | finish v hk hr _ =>
      exact exists_set hk (fun hP => ⟨hP.1, fun _ => hP.2 (Draining.running_iff.mpr hr)⟩) h
  | cancelRun hk hr =>
      exact exists_set hk (fun hP => ⟨hP.1, fun _ => hP.2 (Draining.running_iff.mpr hr)⟩) h
  | quiet | request | abortRequest | call | expire | burnWorkItemId | burnRcaId => exact h

theorem claimed_now {w w' : World} {k : Nat} {o : Outcome} {r : Run}
    (hs : step cfg w (.run k o) = some w') (hk : w.runs[k]? = some r) (hpc : r.pc = .claim)
    (ho : takesEffect o = true) : Claimed w' r.mongoId := by
  obtain ⟨_, _, hr'⟩ := Effects.own_run hs hk (by rw [hpc]; exact fun w h => by cases h)
  exact ⟨_, List.mem_of_getElem? hr', attempt_mongoId r o _ _, attempt_claim _ _ hpc ho⟩

/-- A key gets a placeholder from the claim of its run, and from nothing else. -/
theorem placeholder_set {s t : Timed} {e : TimedEvent} {key m : String} {entry : Entry String}
    (hs : timedStep cfg ttl s e = some t) (hentry : t.keys key = some entry)
    (hvalue : entry.value = placeholder m) :
    s.keys key = some entry ∨ ∃ k o r, e = .service (.run k o) ∧ s.world.runs[k]? = some r ∧
      r.mongoId = m ∧ r.pc = .claim ∧ takesEffect o = true := by
  rcases timedStep_cases hs with ⟨time, rfl, rfl⟩ | ⟨e', rfl, _, _, _, hkeys⟩
  · exact .inl hentry
  · rw [hkeys] at hentry
    by_cases hsame : keysAfter ttl s e' = s.keys
    · exact .inl (hsame ▸ hentry)
    rcases keysAfter_cases ttl s e' with hkeep | ⟨k, o, r, mode, value, rfl, hk, hcommand, hput⟩ |
      ⟨other, hdelete⟩
    · exact absurd hkeep hsame
    · have ho : takesEffect o = true := by
        cases ho : takesEffect o with
        | true => rfl
        | false => exact absurd (by simp [keysAfter, ho]) hsame
      rw [hput] at hentry
      unfold put at hentry
      split at hentry
      · by_cases hkey : key = keyOf r
        · rw [hkey, Function.update_self] at hentry
          cases hentry
          refine .inr ⟨k, o, r, rfl, hk, ?_⟩
          cases hpc : r.pc with
          | claim =>
              rw [command, hpc] at hcommand
              cases hcommand
              exact ⟨Workers.placeholder_injective hvalue, rfl, ho⟩
          | publish won w =>
              rw [command, hpc] at hcommand
              cases won <;> cases hcommand <;>
                exact absurd hvalue.symm (Workers.placeholder_ne_str m w)
          | _ =>
              rw [command, hpc] at hcommand
              cases hcommand
        · rw [Function.update_of_ne hkey] at hentry
          exact .inl hentry
      · exact .inl hentry
    · rw [hdelete, delete] at hentry
      by_cases hkey : key = other
      · rw [hkey, Function.update_self] at hentry
        cases hentry
      · rw [Function.update_of_ne hkey] at hentry
        exact .inl hentry

def PlaceholdersClaimed (s : Timed) : Prop :=
  ∀ key m entry, s.keys key = some entry → entry.value = placeholder m → Claimed s.world m

theorem placeholdersClaimed_step {s t : Timed} {e : TimedEvent} (h : PlaceholdersClaimed s)
    (hs : timedStep cfg ttl s e = some t) : PlaceholdersClaimed t := by
  intro key m entry hentry hvalue
  rcases placeholder_set hs hentry hvalue with hbefore | ⟨k, o, r, rfl, hk, rfl, hpc, ho⟩
  · have hclaimed := h key m entry hbefore hvalue
    rcases timedStep_cases hs with ⟨_, rfl, rfl⟩ | ⟨e', rfl, _, hworld, _, _⟩
    · exact hclaimed
    · exact claimed_step hclaimed hworld
  · rcases timedStep_cases hs with ⟨_, he, _⟩ | ⟨e', he, _, hworld, _, _⟩
    · cases he
    · cases he
      exact claimed_now hworld hk hpc ho

/-- Once the run of m has claimed, no claim sets its placeholder again. -/
theorem same_entry_step {s t : Timed} {e : TimedEvent} {key m : String} {d : Nat}
    (hoids : (s.world.runs.map Run.mongoId).Nodup) (hrunning : ∀ k o r, e = .service (.run k o) →
      s.world.runs[k]? = some r → r.status = .running) (hclaimed : Claimed s.world m)
    (h : ∀ entry, s.keys key = some entry → entry.value = placeholder m → entry.deadline = d)
    (hs : timedStep cfg ttl s e = some t) :
    ∀ entry, t.keys key = some entry → entry.value = placeholder m → entry.deadline = d := by
  intro entry hentry hvalue
  rcases placeholder_set hs hentry hvalue with hbefore | ⟨k, o, r, rfl, hk, hm, hpc, _⟩
  · exact h entry hbefore hvalue
  · obtain ⟨b, hb, hbm, hpast⟩ := hclaimed
    cases eq_of_nodup hoids hb (List.mem_of_getElem? hk) (hbm.trans hm.symm)
    have := hpast (Draining.running_iff.mpr (hrunning k o r rfl hk))
    rw [hpc] at this
    cases this

theorem key_entry {s : Timed} (h : KeysTimed ttl s) {key v : String}
    (hkey : s.world.stores.redis.strings key = some v) :
    ∃ entry, s.keys key = some entry ∧ entry.value = v := by
  rw [← h.values] at hkey
  obtain ⟨entry, hentry, hvalue⟩ := Option.map_eq_some_iff.mp hkey
  exact ⟨entry, hentry, hvalue⟩

/-- A placeholder that has stood for the time to live is read by no run more, and
gives way; so a claim whose run has failed stands in the way of its component no
longer than that, however the other operations end. -/
theorem placeholder_runs_out {ok : Timed → TimedEvent → Prop} {es es' : List TimedEvent}
    {s t : Timed} {c m : String} (h : Trace (timedStep cfg ttl) ok (start n) es s)
    (h' : Trace (timedStep cfg ttl) ok s es' t)
    (hs : s.world.stores.redis.strings (dedupKey c) = some (placeholder m))
    (ht : t.world.stores.redis.strings (dedupKey c) = some (placeholder m))
    (htime : s.now + ttl ≤ t.now) :
    (∀ k o r, t.world.runs[k]? = some r → r.sig.componentId = c → readsKey r.pc = true →
        timedStep cfg ttl t (.service (.run k o)) = none) ∧
      ∃ u, timedStep cfg ttl t (.service (.expire (dedupKey c))) = some u ∧
        keyed c u.world.stores = false := by
  have hkeys := keysTimed_trace h
  have hclaims : PlaceholdersClaimed s :=
    h.invariant PlaceholdersClaimed (fun _ _ _ hentry => by cases hentry)
      fun _ _ _ hclaims _ hs => placeholdersClaimed_step hclaims hs
  obtain ⟨entry, hentry, hvalue⟩ := key_entry hkeys hs
  have hlater := h'.invariant_past (fun es' t => Claimed t.world m ∧
    ∀ e, t.keys (dedupKey c) = some e → e.value = placeholder m → e.deadline = entry.deadline)
    ⟨hclaims _ _ _ hentry hvalue, fun e he _ => by rw [Option.some.inj (hentry.symm.trans he)]⟩
    ?_
  · obtain ⟨entry', hentry', hvalue'⟩ := key_entry (keysTimed_trace (h.trans h')) ht
    have hdeadline := hlater.2 entry' hentry' hvalue'
    have hbound := (hkeys.timely _ _ hentry).2
    have hover : overdue t.now (t.keys (dedupKey c)) = true := by
      rw [hentry']
      exact decide_eq_true (by omega)
    refine ⟨fun k o r hk hc hreads => ?_, ?_⟩
    · have hkey : keyOf r = dedupKey c := congrArg dedupKey hc
      simp [timedStep, inTime, hk, hreads, hkey, hover]
    · refine ⟨_, if_pos hover, ?_⟩
      simp [keyed, Redis.delete]
  · rintro es' u e v h' ⟨hclaimed, hsame⟩ _ hstep
    have hnamed := named_trace
      (timed_world (p := fun _ _ => True) (h.trans h') fun _ _ _ => trivial)
    refine ⟨?_, same_entry_step hnamed.oids ?_ hclaimed hsame hstep⟩
    · rcases timedStep_cases hstep with ⟨_, rfl, rfl⟩ | ⟨e', rfl, _, hworld, _, _⟩
      · exact hclaimed
      · exact claimed_step hclaimed hworld
    · rintro k o r rfl hk
      rcases timedStep_cases hstep with ⟨_, he, _⟩ | ⟨e', he, _, hworld, _, _⟩
      · cases he
      · cases he
        obtain ⟨b, _, hb, hrun, _⟩ := Effects.own_step hworld rfl
        rwa [Option.some.inj (hk.symm.trans hb)]

theorem placeholder_runs_out_winner_dies : ∃ t : Timed,
    (∀ k o r, t.world.runs[k]? = some r → r.sig.componentId = "db" → readsKey r.pc = true →
        timedStep {} 10 t (.service (.run k o)) = none) ∧
      ∃ u, timedStep {} 10 t (.service (.expire (dedupKey "db"))) = some u ∧
        keyed "db" u.world.stores = false := by
  let held (s : Timed) : Bool :=
    decide (s.world.stores.redis.strings (dedupKey "db") = some (placeholder "a"))
  obtain ⟨s, hs, hp⟩ := trace_of_replay (timedStep {} 10) (fun _ _ => True) (start 3)
    (winnerDies.map .service) (fun s => held s && decide (s.now = 0)) (by decide +kernel)
  obtain ⟨t, ht, hq⟩ := trace_of_replay (timedStep {} 10) (fun _ _ => True) (start 3)
    (winnerDies.map .service ++ [.pass 10]) (fun t => held t && decide (t.now = 10))
    (by decide +kernel)
  simp only [held, Bool.and_eq_true, decide_eq_true_eq] at hp hq
  obtain ⟨hs, hlast⟩ := ht.split_at hs
  exact ⟨t, placeholder_runs_out hs hlast hp.1 hq.1 (by omega)⟩

end Ims.Placeholders
