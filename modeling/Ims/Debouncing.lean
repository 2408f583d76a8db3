import Ims.CrossStore
import Ims.DedupWindows
import Ims.Requests

namespace Ims.Debouncing

open Library.Text Library.Runs Library.Tables Library.Slots Models Mongo PostgresRepo RedisCache
  Ingestion Service WorkerSteps ServiceSteps WorkerMoves WorkerFrames Rows Integrity Effects CrossStore
  Requests
open Workers (Stores Run Pc Outcome)
open DedupWindows (keyed vanishes keyed_of_gone)

/-- No failed operation of a run has an effect, and the key of c is not lost. -/
def Uninterrupted (cfg : Settings) (c : String) (s : World) (e : Event) : Prop :=
  Clean e ∧ (step cfg s e).all (fun t => decide (vanishes c s e t = 0)) = true

instance (cfg : Settings) (c : String) (s : World) (e : Event) :
    Decidable (Uninterrupted cfg c s e) :=
  inferInstanceAs (Decidable (Clean e ∧ _ = true))

def wins (c : String) (s : World) : Event → List Nat
  | .run k .ok => match s.runs[k]? with
    | none => []
    | some r =>
        if r.sig.componentId = c ∧ r.pc = .claim ∧ keyed c s.stores = false then [k] else []
  | _ => []

def inserts (c : String) (s : World) : Event → List (Nat × Int)
  | .run k .ok => match s.runs[k]? with
    | none => []
    | some r => match r.pc with
      | .create _ => if r.sig.componentId = c then [(k, s.stores.postgres.workItemsSeq + 1)] else []
      | _ => []
  | _ => []

def early (pc : Pc) : Bool := decide (pc = .insertSignal ∨ pc = .claim)

/-- The run is not about to insert a work item, and has inserted none that it
publishes without the claim. -/
def plain : Pc → Bool
  | .create _ | .publish false _ => false
  | .insertSignal | .claim | .publish true _ | .pushLiveFeed _ | .dispatch _ | .getOpenWorkItem
  | .increment _ | .addLink _ | .backfill _ | .upsertMetric _ | .finish _ => true

structure Debounced (c : String) (won : List Nat) (made : List (Nat × Int)) (s : World) : Prop where
  unclaimed : keyed c s.stores = false → won = [] ∧ made = [] ∧
    ∀ r ∈ s.runs, r.sig.componentId = c → early r.pc = true
  winners : won.length ≤ 1
  makers : made.length ≤ 1 ∧ ∀ p ∈ made, p.1 ∈ won
  making : ∀ (k : Nat) (r : Run), s.runs[k]? = some r → r.sig.componentId = c → plain r.pc = false →
    r.pc = .create true ∧ won = [k] ∧ made = []
  items : ∀ wi ∈ origins s.stores, wi.componentId = c → ∃ k, (k, wi.id) ∈ made
  copied : ∀ p ∈ made, ∃ r now, s.runs[p.1]? = some r ∧ r.sig.componentId = c ∧
    newWorkItem r.sig p.2 now ∈ origins s.stores

variable {cfg : Settings} {s t : World} {e : Event} {c : String} {won : List Nat}
  {made : List (Nat × Int)}

theorem run_stays {k : Nat} {r : Run} (hs : step cfg s e = some t) (hr : s.runs[k]? = some r) :
    ∃ r', t.runs[k]? = some r' ∧ r'.sig = r.sig := by
  by_cases hk : runIndex e = some k
  · obtain ⟨b, b', hb, _, hb', ⟨o, _, _, rfl⟩ | ⟨_, _, rfl, _⟩⟩ := own_step hs hk
    · cases Option.some.inj (hr.symm.trans hb)
      exact ⟨_, hb', (attempt_sig r o _ _).1⟩
    · cases Option.some.inj (hr.symm.trans hb)
      exact ⟨_, hb', rfl⟩
  · exact ⟨r, other_step hs hk hr, rfl⟩

/-- A step that neither claims nor inserts for c. -/
theorem Debounced.keep (h : Debounced c won made s) (hs : step cfg s e = some t)
    (hkey : keyed c s.stores = true → keyed c t.stores = true)
    (hitems : ∀ wi ∈ origins t.stores, wi.componentId = c → wi ∈ origins s.stores)
    (hruns : ∀ (k : Nat) (r : Run), t.runs[k]? = some r → r.sig.componentId = c →
      (∃ b, s.runs[k]? = some b ∧ b.pc = r.pc ∧ b.sig = r.sig) ∨
        plain r.pc = true ∧ (keyed c s.stores = false → early r.pc = true)) : Debounced c won made t := by
  refine ⟨fun hnone => ?_, h.winners, h.makers, fun k r hk hc hplain => ?_, fun wi hwi hc => ?_,
    fun p hp => ?_⟩
  · have hnone : keyed c s.stores = false := by
      rw [Bool.eq_false_iff] at hnone ⊢
      exact fun hsome => hnone (hkey hsome)
    obtain ⟨hwon, hmade, hearly⟩ := h.unclaimed hnone
    refine ⟨hwon, hmade, fun r hr hc => ?_⟩
    obtain ⟨k, hk⟩ := List.mem_iff_getElem?.mp hr
    rcases hruns k r hk hc with ⟨b, hb, hpc, hsig⟩ | ⟨_, hpc⟩
    · rw [← hpc]
      exact hearly b (List.mem_of_getElem? hb) (hsig ▸ hc)
    · exact hpc hnone
  · rcases hruns k r hk hc with ⟨b, hb, hpc, hsig⟩ | ⟨hplain', _⟩
    · rw [← hpc]
      exact h.making k b hb (hsig ▸ hc) (hpc ▸ hplain)
    · rw [hplain'] at hplain
      cases hplain
  · exact h.items wi (hitems wi hwi hc) hc
  · obtain ⟨r, now, hr, hc, hnew⟩ := h.copied p hp
    obtain ⟨r', hr', hsig⟩ := run_stays hs hr
    exact ⟨r', now, hr', hsig ▸ hc, (step_grows hs).items _ (hsig ▸ hnew)⟩

theorem Debounced.early (h : Debounced c won made s) {r : Run} (hr : r ∈ s.runs)
    (hc : r.sig.componentId = c) (hpc : early r.pc = false) : keyed c s.stores = true := by
  by_cases hkey : keyed c s.stores = true
  · exact hkey
  · rw [(h.unclaimed (Bool.eq_false_iff.mpr hkey)).2.2 r hr hc] at hpc
    cases hpc

/-- What a run for c does from anywhere but a claim or an insert. -/
theorem runStep_plain {now : Int} {st st' : Stores} {r r' : Run} (h : RunStep now st r st' r')
    (hplain : plain r.pc = true) (hclaim : r.pc ≠ .claim)
    (hget : r.pc = .getOpenWorkItem → getOpenWorkItem st.redis r.sig.componentId ≠ .ok none) :
    plain r'.pc = true ∧ (early r.pc = true → early r'.pc = true) ∧ origins st' = origins st := by
  have horigins : origins st' = origins st := by
    rcases runStep_items h with ⟨won, hpc, _⟩ | ⟨horigins, _⟩
    · rw [hpc] at hplain
      cases hplain
    · exact horigins
  refine ⟨?_, ?_, horigins⟩
  · cases h with
    | stay _ _ _ hpc => rwa [hpc]
    | win hpc | lose hpc => exact absurd hpc hclaim
    | create _ hpc =>
        rw [hpc] at hplain
        cases hplain
    | findGone hpc hnone => exact absurd hnone (hget hpc)
    | insert | publishGone | publishOver | publishAnyway | push | dispatch | findItem | increment
    | link | backfill | skipBackfill | meter => rfl
  · intro hearly
    cases h with
    | stay _ _ _ hpc => rwa [hpc]
    | insert => rfl
    | win hpc | lose hpc => exact absurd hpc hclaim
    | create _ hpc | publishGone _ hpc | publishOver _ _ hpc | publishAnyway _ hpc | push _ hpc
    | dispatch _ _ hpc | findGone hpc | findItem _ hpc | increment _ hpc | link _ hpc
    | backfill _ hpc | skipBackfill _ hpc | meter _ hpc =>
        rw [hpc] at hearly
        cases hearly

theorem Debounced.plain (h : Debounced c won made s) {k : Nat} {r : Run} (hk : s.runs[k]? = some r)
    (hc : r.sig.componentId = c) (hcreate : ∀ b, r.pc ≠ .create b) : plain r.pc = true := by
  by_cases hplain : Debouncing.plain r.pc = true
  · exact hplain
  · exact absurd (h.making k r hk hc (Bool.eq_false_iff.mpr hplain)).1 (hcreate true)

/-- A step of run k for c that takes it neither to an insert nor to a bare publication. -/
theorem Debounced.own (h : Debounced c won made s) (hs : step cfg s e = some t)
    (hkey : keyed c s.stores = true → keyed c t.stores = true) {k : Nat} {r' : Run}
    (he : runIndex e = some k) (hk' : t.runs[k]? = some r') (horigins : origins t.stores = origins s.stores)
    (hown : (∃ b, s.runs[k]? = some b ∧ b.pc = r'.pc ∧ b.sig = r'.sig) ∨
      Debouncing.plain r'.pc = true ∧ (keyed c s.stores = false → Debouncing.early r'.pc = true)) :
    Debounced c won made t := by
  refine h.keep hs hkey (fun wi hwi _ => horigins ▸ hwi) fun j b hb hc => ?_
  by_cases hj : j = k
  · subst hj
    rwa [Option.some.inj (hb.symm.trans hk')]
  · rcases other_back hs (fun hi => hj (Option.some.inj (hi.symm.trans he))) hb with hb | ⟨_, hpc, _⟩
    · exact .inl ⟨b, hb, rfl, rfl⟩
    · rw [hpc]
      exact .inr ⟨rfl, fun _ => rfl⟩

section Claims

variable {k : Nat} {r : Run} (h : Debounced c won made s) (hs : step cfg s (.run k .ok) = some t)
  (hk : s.runs[k]? = some r) (hc : r.sig.componentId = c)
  (hst : t.stores = (r.attempt .ok s.clock s.stores).1)
  (hk' : t.runs[k]? = some (r.attempt .ok s.clock s.stores).2)

include h hs hk hc hst hk'

theorem debounced_win (hpc : r.pc = .claim) (hkey : keyed c s.stores = false) :
    Debounced c [k] [] t := by
  obtain ⟨rfl, rfl, hearly⟩ := h.unclaimed hkey
  have hnone : s.stores.redis.strings (dedupKey r.sig.componentId) = none := by
    simpa [keyed, hc] using hkey
  simp only [Run.attempt, Run.perform, hpc, setNx_none hnone, Run.resume, if_true] at hst hk'
  have hset : keyed c t.stores = true := by
    rw [hst]
    exact (DedupWindows.keyed_set c (Workers.placeholder r.mongoId) s.stores r).trans (by simp [hc])
  refine ⟨fun hgone => ?_, le_refl 1, ⟨Nat.zero_le 1, fun _ hp => absurd hp List.not_mem_nil⟩,
    fun j b hb hbc hplain => ?_, ?_, fun _ hp => absurd hp List.not_mem_nil⟩
  · rw [hset] at hgone
    cases hgone
  · by_cases hj : j = k
    · subst hj
      rw [← Option.some.inj (hk'.symm.trans hb)]
      exact ⟨rfl, rfl, rfl⟩
    · rcases other_back hs (fun hi => hj (Option.some.inj hi).symm) hb with hb | ⟨_, hpc, _⟩
      · cases (h.making j b hb hbc hplain).2.1
      · rw [hpc] at hplain
        cases hplain
  · rw [hst]
    exact h.items

theorem debounced_insert {b : Bool} (hpc : r.pc = .create b) :
    Debounced c won (made ++ [(k, s.stores.postgres.workItemsSeq + 1)]) t := by
  obtain ⟨hcreate, rfl, rfl⟩ := h.making k r hk hc (by rw [hpc]; rfl)
  have hkeyed := h.early (List.mem_of_getElem? hk) hc (by rw [hpc]; rfl)
  rw [hcreate] at hpc
  cases hpc
  simp only [Run.attempt, Run.perform, hcreate, createWorkItem, Run.resume] at hst hk'
  have horigins : origins t.stores = origins s.stores ++
      [newWorkItem r.sig (s.stores.postgres.workItemsSeq + 1) s.clock] := by
    rw [hst, origins, List.map_append]
    rfl
  refine ⟨fun hgone => ?_, le_refl 1, ⟨le_refl 1, ?_⟩, fun j p hp hpc hplain => ?_, ?_, ?_⟩
  · rw [hst] at hgone
    cases hkeyed.symm.trans hgone
  · intro p hp
    rw [List.mem_singleton.mp hp]
    exact List.mem_singleton.mpr rfl
  · by_cases hj : j = k
    · subst hj
      rw [← Option.some.inj (hk'.symm.trans hp)] at hplain
      cases hplain
    · rcases other_back hs (fun hi => hj (Option.some.inj hi).symm) hp with hp | ⟨_, hpc, _⟩
      · exact absurd (List.singleton_inj.mp (h.making j p hp hpc hplain).2.1).symm hj
      · rw [hpc] at hplain
        cases hplain
  · rw [horigins]
    refine forall_push (fun wi hwi hwc => ?_) fun _ => ⟨k, List.mem_singleton.mpr rfl⟩
    obtain ⟨j, hj⟩ := h.items wi hwi hwc
    cases hj
  · intro p hp
    rw [List.mem_singleton.mp hp, horigins]
    exact ⟨_, s.clock, hk', hc, List.mem_append_right _ (List.mem_singleton.mpr rfl)⟩

end Claims

theorem keyed_stays (he : Uninterrupted cfg c s e) (hs : step cfg s e = some t)
    (hkey : keyed c s.stores = true) : keyed c t.stores = true := by
  have hstays := he.2
  rw [hs, Option.all_some, decide_eq_true_iff] at hstays
  by_cases hafter : keyed c t.stores = true
  · exact hafter
  · simp [vanishes, hkey, hafter] at hstays

/-- A failed operation leaves a run for c where it is, or lets it go on from a
place past the claim. -/
theorem debounced_fail (h : Debounced c won made s) {k : Nat} {r : Run} {exc : Exc}
    (he : Uninterrupted cfg c s (.run k (.fail exc))) (hs : step cfg s (.run k (.fail exc)) = some t)
    (hk : s.runs[k]? = some r) (hc : r.sig.componentId = c) (hst : t.stores = s.stores)
    (hk' : t.runs[k]? = some (r.handle exc)) : Debounced c won made t := by
  refine h.own hs (keyed_stays he hs) rfl hk' (by rw [hst]) ?_
  rcases handle_pc r exc with hpc | hswallow
  · exact .inl ⟨r, hk, hpc.symm, (attempt_sig r (.fail exc) s.clock s.stores).1.symm⟩
  · have hlate : Debouncing.early r.pc = false := by
      cases hpc : r.pc <;> simp_all [swallows, Debouncing.early]
    refine .inr ⟨?_, fun hnone => ?_⟩
    · cases hpc : r.pc with
      | dispatch | backfill =>
          simp only [Run.handle, hpc]
          rfl
      | _ =>
          rw [hpc] at hswallow
          cases hswallow
    · rw [h.early (List.mem_of_getElem? hk) hc hlate] at hnone
      cases hnone

section Attempts

variable {k : Nat} {r : Run} (h : Debounced c won made s) (he : Uninterrupted cfg c s (.run k .ok))
  (hs : step cfg s (.run k .ok) = some t) (hk : s.runs[k]? = some r) (hc : r.sig.componentId = c)
  (hst : t.stores = (r.attempt .ok s.clock s.stores).1)
  (hk' : t.runs[k]? = some (r.attempt .ok s.clock s.stores).2)

include h he hs hk hc hst hk'

theorem debounced_claim (hpc : r.pc = .claim) :
    Debounced c (won ++ wins c s (.run k .ok)) (made ++ inserts c s (.run k .ok)) t := by
  have hinserts : inserts c s (.run k .ok) = [] := by simp [inserts, hk, hpc]
  rw [hinserts, List.append_nil]
  cases hkeyed : keyed c s.stores with
  | false =>
      have hwins : wins c s (.run k .ok) = [k] := by simp [wins, hk, hc, hpc, hkeyed]
      have hwon := debounced_win h hs hk hc hst hk' hpc hkeyed
      obtain ⟨rfl, rfl, _⟩ := h.unclaimed hkeyed
      rwa [hwins]
  | true =>
      have hwins : wins c s (.run k .ok) = [] := by simp [wins, hk, hkeyed]
      obtain ⟨v, hv⟩ := Option.isSome_iff_exists.mp hkeyed
      rw [← hc] at hv
      rw [hwins, List.append_nil]
      simp only [Run.attempt, Run.perform, hpc, setNx_some hv, Run.resume] at hst hk'
      refine h.own hs (keyed_stays he hs) rfl hk' (by rw [hst]) (.inr ⟨rfl, fun hnone => ?_⟩)
      rw [hkeyed] at hnone
      cases hnone

theorem debounced_plain (hwf : Wf s) (hclaim : r.pc ≠ .claim) (hcreate : ∀ b, r.pc ≠ .create b) :
    Debounced c won made t := by
  have hplain := h.plain hk hc hcreate
  obtain ⟨hplain', hearly, horigins⟩ := runStep_plain (perform_runStep s.clock s.stores r) hplain
    hclaim fun hpc hget => by
      have hlate := h.early (List.mem_of_getElem? hk) hc (by rw [hpc]; rfl)
      rw [← hc, keyed_of_gone hwf.keys hget] at hlate
      cases hlate
  refine h.own hs (keyed_stays he hs) rfl hk' (by rw [hst]; exact horigins)
    (.inr ⟨hplain', fun hnone => ?_⟩)
  exact hearly ((h.unclaimed hnone).2.2 r (List.mem_of_getElem? hk) hc)

end Attempts

/-- A step of run k for c, which has one place to win and one to insert. -/
theorem debounced_attempt (h : Debounced c won made s) (hwf : Wf s) {k : Nat} {r : Run} {o : Outcome}
    (he : Uninterrupted cfg c s (.run k o)) (hs : step cfg s (.run k o) = some t)
    (hk : s.runs[k]? = some r) (hc : r.sig.componentId = c)
    (hst : t.stores = (r.attempt o s.clock s.stores).1)
    (hk' : t.runs[k]? = some (r.attempt o s.clock s.stores).2) :
    Debounced c (won ++ wins c s (.run k o)) (made ++ inserts c s (.run k o)) t := by
  cases o with
  | lost => exact absurd he.1 id
  | fail exc =>
      simp only [wins, inserts, List.append_nil]
      exact debounced_fail h he hs hk hc hst hk'
  | ok =>
      by_cases hclaim : r.pc = .claim
      · exact debounced_claim h he hs hk hc hst hk' hclaim
      have hwins : wins c s (.run k .ok) = [] := by simp [wins, hk, hclaim]
      rw [hwins, List.append_nil]
      by_cases hcreate : ∃ b, r.pc = .create b
      · obtain ⟨b, hpc⟩ := hcreate
        have hinserts : inserts c s (.run k .ok) = [(k, s.stores.postgres.workItemsSeq + 1)] := by
          simp [inserts, hk, hpc, hc]
        rw [hinserts]
        exact debounced_insert h hs hk hc hst hk' hpc
      · have hnot : ∀ b, r.pc ≠ .create b := fun b hb => hcreate ⟨b, hb⟩
        have hinserts : inserts c s (.run k .ok) = [] := by
          simp only [inserts, hk]
        rw [hinserts, List.append_nil]
        exact debounced_plain h he hs hk hc hst hk' hwf hclaim hnot

/-- The incident of the window: one run has won it and inserted its item, and all
that the stores attach to a signal of c is attached to that item. -/
structure OneIncident (cfg : Settings) (n : Nat) (c : String) (es : List Event) (s : World) : Prop where
  winner : (gather (step cfg) (wins c) (init n) es).length ≤ 1
  inserted : (gather (step cfg) (inserts c) (init n) es).length ≤ 1 ∧
    ∀ p ∈ gather (step cfg) (inserts c) (init n) es, p.1 ∈ gather (step cfg) (wins c) (init n) es
  links : ∀ l ∈ s.stores.postgres.signalLinks, l.componentId = c →
    ∃ k, (k, l.workItemId) ∈ gather (step cfg) (inserts c) (init n) es
  documents : ∀ d ∈ s.stores.mongo, d.componentId = c → ∀ w, d.workItemId = some w →
    ∃ k, (k, w) ∈ gather (step cfg) (inserts c) (init n) es
  item : ∀ p ∈ gather (step cfg) (inserts c) (init n) es, ∃ r wi, s.runs[p.1]? = some r ∧
    r.sig.componentId = c ∧ wi ∈ s.stores.postgres.workItems ∧ wi.id = p.2 ∧ wi.componentId = c ∧
      wi.componentType = r.sig.componentType ∧ wi.severity = r.sig.severity ∧
        wi.startTime = r.sig.timestamp.instant

def ownEvent (c : String) (s : World) (e : Event) : Prop :=
  ∃ k r, runIndex e = some k ∧ s.runs[k]? = some r ∧ r.sig.componentId = c

theorem debounced_other (h : Debounced c won made s) (he : Uninterrupted cfg c s e)
    (hs : step cfg s e = some t) (hown : ¬ ownEvent c s e) :
    Debounced c (won ++ wins c s e) (made ++ inserts c s e) t := by
  have hnothing : wins c s e = [] ∧ inserts c s e = [] := by
    cases e with
    | run k o =>
        cases o with
        | fail | lost => exact ⟨rfl, rfl⟩
        | ok =>
            cases hk : s.runs[k]? with
            | none => simp [wins, inserts, hk]
            | some r =>
                have hc : r.sig.componentId ≠ c := fun hc => hown ⟨k, r, rfl, hk, hc⟩
                cases hpc : r.pc <;> simp [wins, inserts, hk, hc, hpc]
    | _ => exact ⟨rfl, rfl⟩
  rw [hnothing.1, hnothing.2, List.append_nil, List.append_nil]
  refine h.keep hs (keyed_stays he hs) (fun wi hwi hc => ?_) fun j b hb hc => ?_
  · rcases step_stores hs with htame | ⟨k, r, r', hk, hr, hstep⟩
    · rwa [htame.origins] at hwi
    · rcases runStep_items hstep with ⟨_, _, _, hitems, _⟩ | ⟨horigins, _⟩
      · rw [origins, hitems, List.map_append] at hwi
        rcases List.mem_append.mp hwi with hwi | hwi
        · exact hwi
        · rw [List.mem_singleton.mp hwi] at hc
          exact absurd ⟨k, r, hk, hr, hc⟩ hown
      · rwa [horigins] at hwi
  · by_cases hj : runIndex e = some j
    · obtain ⟨b₀, _, hb₀, _⟩ := own_step hs hj
      obtain ⟨b₁, hb₁, hsig⟩ := run_stays hs hb₀
      cases Option.some.inj (hb.symm.trans hb₁)
      exact absurd ⟨j, b₀, hj, hb₀, hsig ▸ hc⟩ hown
    · rcases other_back hs hj hb with hb | ⟨_, hpc, _⟩
      · exact .inl ⟨b, hb, rfl, rfl⟩
      · rw [hpc]
        exact .inr ⟨rfl, fun _ => rfl⟩

theorem debounced_step (h : Debounced c won made s) (hwf : Wf s) (he : Uninterrupted cfg c s e)
    (hs : step cfg s e = some t) :
    Debounced c (won ++ wins c s e) (made ++ inserts c s e) t := by
  by_cases hown : ownEvent c s e
  · obtain ⟨k, r, hk, hr, hc⟩ := hown
    obtain ⟨b, b', hb, _, hb', ⟨o, rfl, hst, rfl⟩ | ⟨hst, status, rfl, hended⟩⟩ := own_step hs hk
    · cases Option.some.inj (hr.symm.trans hb)
      exact debounced_attempt h hwf he hs hr hc hst hb'
    · cases Option.some.inj (hr.symm.trans hb)
      have hnothing : wins c s e = [] ∧ inserts c s e = [] := by
        rcases hended with ⟨_, w, hpc⟩ | ⟨_, rfl⟩
        · cases e with
          | run j o =>
              cases hk
              cases o <;> simp [wins, inserts, hr, hpc]
          | _ => exact ⟨rfl, rfl⟩
        · exact ⟨rfl, rfl⟩
      rw [hnothing.1, hnothing.2, List.append_nil, List.append_nil]
      exact h.own hs (keyed_stays he hs) hk hb' (by rw [hst]) (.inl ⟨r, hr, rfl, rfl⟩)
  · exact debounced_other h he hs hown

theorem debounced_trace {n : Nat} {es : List Event}
    (h : Trace (step cfg) (Uninterrupted cfg c) (init n) es s) :
    Debounced c (gather (step cfg) (wins c) (init n) es) (gather (step cfg) (inserts c) (init n) es)
      s := by
  refine (h.with_invariant Wf (wf_init n) fun s e t hwf he hs => wf_step hwf hs he.1).invariant_past
    (fun es s => Debounced c (gather (step cfg) (wins c) (init n) es)
      (gather (step cfg) (inserts c) (init n) es) s) ?_ ?_
  · refine ⟨fun _ => ⟨rfl, rfl, fun r hr => absurd hr List.not_mem_nil⟩, Nat.zero_le 1,
      ⟨Nat.zero_le 1, fun _ hp => absurd hp List.not_mem_nil⟩, ?_,
      fun wi hwi => absurd hwi List.not_mem_nil, fun _ hp => absurd hp List.not_mem_nil⟩
    intro k r hk
    cases hk
  · intro es s e t htrace hdebounced he hs
    rw [htrace.gather_next hs, htrace.gather_next hs]
    exact debounced_step hdebounced he.1 he.2 hs

/-- Within one uninterrupted window all signals of a component go to the incident
of the one run that claimed it. -/
theorem one_incident_per_window {n : Nat} {es : List Event}
    (h : Trace (step cfg) (Uninterrupted cfg c) (init n) es s) : OneIncident cfg n c es s := by
  have hdebounced := debounced_trace h
  have hconsistent := consistent_of_wf (wf_trace h fun _ _ he => he.1)
  have hids := (wf_trace h fun _ _ he => he.1).docs.ids
  have hlinks : ∀ l ∈ s.stores.postgres.signalLinks, l.componentId = c →
      ∃ k, (k, l.workItemId) ∈ gather (step cfg) (inserts c) (init n) es := by
    intro l hl hc
    obtain ⟨wi, hwi, hid, hcomp⟩ := hconsistent.linkedItem l hl
    rw [← hid]
    exact hdebounced.items (origin wi) (List.mem_map_of_mem hwi) (hcomp.trans hc)
  refine ⟨hdebounced.winners, hdebounced.makers, hlinks, fun d hd hc w hw => ?_, fun p hp => ?_⟩
  · obtain ⟨l, hl, hlw, hld⟩ := hconsistent.backfilled d hd w hw
    obtain ⟨d', hd', hid, hcomp, _⟩ := hconsistent.linkedDocument l hl
    rw [eq_of_nodup hids hd' hd (hid.trans hld)] at hcomp
    exact hlw ▸ hlinks l hl (hcomp.symm.trans hc)
  · obtain ⟨r, now, hr, hc, hnew⟩ := hdebounced.copied p hp
    obtain ⟨wi, hwi, horigin⟩ := List.mem_map.mp hnew
    have hcopy {α : Type} (f : WorkItem → α) (hf : f (origin wi) = f wi) :
        f wi = f (newWorkItem r.sig p.2 now) := by rw [← horigin, hf]
    exact ⟨r, wi, hr, hc, hwi, hcopy WorkItem.id rfl, (hcopy WorkItem.componentId rfl).trans hc,
      hcopy WorkItem.componentType rfl, hcopy WorkItem.severity rfl, hcopy WorkItem.startTime rfl⟩

/-- Two signals race for the window: the loser reads the key after the winner has
published, and the winner fails at its push for good. -/
def winnerFailsLate : List Event :=
  List.replicate 2 (.offer (errorSignal "db")) ++ [.get "a", .get "b"] ++ runOn 0 4 ++ runOn 1 7 ++
    List.replicate 3 (.run 0 (.fail .storeError))

theorem one_incident_per_window_winner_fails_late :
    ∃ s : World, s.stores.postgres.signalLinks.map SignalLink.workItemId = [1] ∧
      OneIncident {} 2 "db" winnerFailsLate s := by
  obtain ⟨s, hs, hp⟩ := trace_of_replay (step {}) (Uninterrupted {} "db") (init 2) winnerFailsLate
    (fun s => decide (s.stores.postgres.signalLinks.map SignalLink.workItemId = [1]))
    (by decide +kernel)
  exact ⟨s, of_decide_eq_true hp, one_incident_per_window hs⟩

end Ims.Debouncing
