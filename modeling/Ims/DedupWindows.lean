import Ims.Integrity

namespace Ims.DedupWindows

open Library.Runs Library.Tables Library.Slots Models PostgresRepo RedisCache Ingestion Service
  WorkerSteps WorkerMoves WorkerFrames Integrity
open Workers (Stores Run Pc Outcome)

/-- The work items created so far for a component; no row is ever deleted. -/
def created (c : String) (st : Stores) : Nat :=
  st.postgres.workItems.countP fun wi => decide (wi.componentId = c)

def keyed (c : String) (st : Stores) : Bool := (st.redis.strings (dedupKey c)).isSome

def vanishes (c : String) (s : World) (_ : Event) (t : World) : Nat :=
  if keyed c s.stores && !keyed c t.stores then 1 else 0

def toCreate (c : String) (r : Run) : Bool :=
  decide (r.sig.componentId = c) && match r.pc with
    | .create _ => decide (r.status = .running)
    | _ => false

/-- The run has found the key gone and not set it again: it is still on its way
to do so, or has ended after creating its work item. -/
def unpublished (c : String) (r : Run) : Bool :=
  decide (r.sig.componentId = c) && match r.pc with
    | .create false => decide (r.status = .running)
    | .publish false _ => true
    | _ => false

def findsAbsent (c : String) (st : Stores) (r : Run) : Bool :=
  decide (r.sig.componentId = c ∧ (r.pc = .claim ∨ r.pc = .getOpenWorkItem)) && !keyed c st

/-- A run finds the key absent while another has found it gone and not set it again. -/
def overlaps (c : String) (s : World) : Event → Bool
  | .run k .ok => (s.runs[k]?).any (findsAbsent c s.stores) && s.runs.any (unpublished c)
  | _ => false

def window (keyed : Bool) (unpublished : Nat) : Int :=
  if keyed || decide (0 < unpublished) then 1 else 0

def closedWindows (c : String) (s : World) : Int :=
  created c s.stores + s.runs.countP (toCreate c) -
    window (keyed c s.stores) (s.runs.countP (unpublished c))

theorem created_origins (c : String) (st : Stores) :
    created c st = (origins st).countP fun wi => decide (wi.componentId = c) := by
  rw [origins, List.countP_map]
  rfl

theorem keyed_of_gone {st : Stores} {runs : List Run} (h : KeysWf st runs) {c : String}
    (hget : getOpenWorkItem st.redis c = .ok none) : keyed c st = false := by
  cases hkey : st.redis.strings (dedupKey c) with
  | none => simp [keyed, hkey]
  | some v =>
      rcases h c v hkey with ⟨r, _, _, _, rfl⟩ | ⟨wi, _, _, rfl⟩
      · rw [Workers.getOpenWorkItem_placeholder hkey] at hget
        cases hget
      · rw [getOpenWorkItem_str hkey] at hget
        cases hget

theorem keyed_set (c v : String) (st : Stores) (r : Run) :
    keyed c { st with redis := st.redis.set (keyOf r) v } =
      (decide (r.sig.componentId = c) || keyed c st) := by
  simp only [keyed, Redis.set, keyOf]
  by_cases hc : r.sig.componentId = c
  · simp [hc]
  · have hne : dedupKey c ≠ dedupKey r.sig.componentId := fun he => hc (dedupKey_injective he).symm
    simp [Function.update_of_ne hne, hc]

theorem created_increment (c : String) (st : Stores) (w now : Int) :
    created c { st with postgres := incrementSignalCount st.postgres w now } = created c st := by
  rw [created_origins, created_origins, origins, origins, origins_increment]

theorem stay_balance (c : String) (st : Stores) {r r' : Run} (hr : r.status = .running)
    (hsig : r'.sig = r.sig) (hpc : r'.pc = r.pc) (n : Nat) :
    ((toCreate c r').toNat : Int) - window (keyed c st) (n + (unpublished c r').toNat) ≤
      (toCreate c r).toNat - window (keyed c st) (n + (unpublished c r).toNat) := by
  cases hpc' : r.pc with
  | create won =>
      by_cases hend : r'.status = .running
      · simp [toCreate, unpublished, hsig, hpc, hr, hend]
      · cases won <;> by_cases hc : r.sig.componentId = c <;>
          simp [toCreate, unpublished, window, hsig, hpc, hpc', hc, hr, hend]
        split_ifs <;> omega
  | publish won w => cases won <;> simp [toCreate, unpublished, hsig, hpc, hpc']
  | _ => simp [toCreate, unpublished, hsig, hpc, hpc']

/-- What one step of a run of the component does to the balance; n counts the
other runs that have found the key gone and not set it again. -/
theorem runStep_balance {now : Int} {st st' : Stores} {r r' : Run} {runs : List Run} {c : String}
    (hstep : RunStep now st r st' r') (hr : r.status = .running) (hkeys : KeysWf st runs)
    (hc : r.sig.componentId = c) {n : Nat}
    (halone : findsAbsent c st r = true → r'.pc ≠ r.pc → n = 0) :
    (created c st' + (toCreate c r').toNat : Int) -
        window (keyed c st') (n + (unpublished c r').toNat) ≤
      created c st + (toCreate c r).toNat - window (keyed c st) (n + (unpublished c r).toNat) := by
  cases hstep with
  | stay _ hsig _ hpc =>
      have := stay_balance c st hr hsig hpc n
      omega
  | win hpc hkey =>
      rw [keyOf, hc] at hkey
      have hkeyed : keyed c st = false := by simp [keyed, hkey]
      have hn := halone (by simp [findsAbsent, hc, hpc, hkeyed]) (by simp [hpc])
      rw [keyed_set]
      simp [created, toCreate, unpublished, window, hkeyed, hpc, hc, hn, hr]
  | findGone hpc hget =>
      rw [hc] at hget
      have hkeyed := keyed_of_gone hkeys hget
      have hn := halone (by simp [findsAbsent, hc, hpc, hkeyed]) (by simp [hpc])
      simp [toCreate, unpublished, window, hkeyed, hpc, hc, hn, hr]
  | create won hpc =>
      cases won <;> simp [created, keyed, toCreate, unpublished, hpc, hc, hr, newWorkItem]
  | publishOver w v hpc hkey =>
      rw [keyOf, hc] at hkey
      have hkeyed : keyed c st = true := by simp [keyed, hkey]
      rw [keyed_set]
      simp [created, toCreate, unpublished, window, hkeyed, hpc, hc]
  | publishAnyway w hpc =>
      rw [keyed_set]
      simp [created, toCreate, unpublished, window, hpc, hc]
  | increment w hpc =>
      rw [created_increment]
      simp [toCreate, unpublished, hpc, keyed]
  | insert hpc | lose hpc | publishGone _ hpc | push _ hpc | dispatch _ _ hpc | findItem _ hpc
  | link _ hpc | backfill _ hpc | skipBackfill _ hpc | meter _ hpc =>
      simp [toCreate, unpublished, hpc, created, keyed, pushLiveFeed, upsertMetricBucket]

theorem runStep_other {now : Int} {st st' : Stores} {r r' : Run} {c : String}
    (hstep : RunStep now st r st' r') (hc : r.sig.componentId ≠ c) :
    created c st' = created c st ∧ keyed c st' = keyed c st ∧ toCreate c r' = toCreate c r ∧
      unpublished c r' = unpublished c r := by
  have hsig := (runStep_sig hstep).1
  have hne : dedupKey c ≠ keyOf r := fun he => hc (dedupKey_injective he).symm
  refine ⟨?_, ?_, by simp [toCreate, hsig, hc], by simp [unpublished, hsig, hc]⟩
  · rcases runStep_items hstep with ⟨_, _, _, hitems, _⟩ | ⟨horigins, _⟩
    · rw [created, hitems, List.countP_append]
      simp [created, newWorkItem, hc]
    · rw [created_origins, horigins, created_origins]
  · rcases runStep_keys hstep with ⟨_, _, _, hkeys⟩ | ⟨_, _, _, _, _, _, hkeys⟩ | ⟨hkeys, _⟩
    · rw [keyed, hkeys, Function.update_of_ne hne, keyed]
    · rw [keyed, hkeys, Function.update_of_ne hne, keyed]
    · rw [keyed, hkeys, keyed]

theorem closedWindows_move {s t : World} {e : Event} {c : String} (hwf : Wf s)
    (hmove : WorkerMove s e t.stores t.runs) (halone : overlaps c s e = false) :
    closedWindows c t ≤ closedWindows c s + vanishes c s e t := by
  unfold closedWindows vanishes
  generalize t.stores = st, t.runs = runs at hmove ⊢
  cases hmove with
  | env st htame =>
      rw [created_origins, htame.origins, ← created_origins]
      rcases htame.keys (dedupKey c) with hkey | hkey
      · have hkeyed : keyed c st = keyed c s.stores := by rw [keyed, hkey, keyed]
        simp [hkeyed]
      · have hkeyed : keyed c st = false := by simp [keyed, hkey]
        rw [hkeyed, window, window]
        cases keyed c s.stores <;> simp
        split_ifs <;> omega
  | get oid sig hoid =>
      simp [List.countP_append, toCreate, unpublished]
  | @run k r st r' _ hk hr hok hstep =>
      have hcreate := countP_set hk (toCreate c) r'
      have hopen := countP_set hk (unpublished c) r'
      by_cases hc : r.sig.componentId = c
      · obtain ⟨n, hn⟩ : ∃ n, s.runs.countP (unpublished c) = n + (unpublished c r).toNat := by
          refine ⟨s.runs.countP (unpublished c) - (unpublished c r).toNat, ?_⟩
          have := countP_le_of_slot hk (unpublished c)
          omega
        have hn' : (s.runs.set k r').countP (unpublished c) = n + (unpublished c r').toNat := by omega
        have hbalance := runStep_balance hstep hr hwf.keys hc (n := n) ?_
        · rw [hn, hn']
          omega
        · intro hfinds hleft
          have hpc := (of_decide_eq_true (Bool.and_eq_true _ _ ▸ hfinds).1).2
          have he : e = .run k .ok := by
            rcases hok with he | hpc' | hswallow
            · exact he
            · exact absurd hpc' hleft
            · rcases hpc with hpc | hpc <;> rw [hpc] at hswallow <;> cases hswallow
          rw [he] at halone
          simp only [overlaps, hk, Option.any_some, hfinds, Bool.true_and] at halone
          have hzero : s.runs.countP (unpublished c) = 0 :=
            List.countP_eq_zero.mpr (List.any_eq_false.mp halone)
          omega
      · obtain ⟨hcreated, hkeyed, hcreate', hopen'⟩ := runStep_other hstep hc
        rw [hcreated, hkeyed]
        rw [hcreate'] at hcreate
        rw [hopen'] at hopen
        have hcount : (s.runs.set k r').countP (unpublished c) = s.runs.countP (unpublished c) := by
          omega
        rw [hcount]
        omega

/-- One work item per dedup window: at every moment the component has at most one
work item more than its key has vanished, when no run finds the key absent while
another that found it gone has not set it again. -/
theorem one_item_per_window {cfg : Settings} {n : Nat} {es : List Event} {s : World} {c : String}
    (h : Trace (step cfg) (fun s e => Clean e ∧ overlaps c s e = false) (init n) es s) :
    created c s.stores ≤ 1 + tally (step cfg) (vanishes c) (init n) es := by
  have hwf := h.with_invariant Wf (wf_init n) fun _ _ _ hwf hok hs => wf_step hwf hs hok.1
  have htally := hwf.le_tally (vanishes c) (closedWindows c) fun s e t ⟨hwf, hclean, halone⟩ hs =>
    closedWindows_move hwf (step_workerMove hs hclean) halone
  have hinit : closedWindows c (init n) = 0 := rfl
  have hwindow : window (keyed c s.stores) (s.runs.countP (unpublished c)) ≤ 1 := by
    unfold window
    split_ifs <;> omega
  rw [hinit, closedWindows] at htally
  omega

def oneExpiry : List Event :=
  List.replicate 2 (.offer (errorSignal "db")) ++ [.get "a", .get "b"] ++ runOn 0 4 ++ runOn 1 2 ++
    [.expire (dedupKey "db")] ++ runOn 1 3

theorem one_item_per_window_one_expiry :
    ∃ s : World, created "db" s.stores = 2 ∧
      created "db" s.stores ≤ 1 + tally (step {}) (vanishes "db") (init 2) oneExpiry := by
  obtain ⟨s, hs, hp⟩ := trace_of_replay (step {}) (fun s e => Clean e ∧ overlaps "db" s e = false)
    (init 2) oneExpiry (fun s => decide (created "db" s.stores = 2)) (by decide +kernel)
  exact ⟨s, of_decide_eq_true hp, one_item_per_window hs⟩

def twoLosers : List Event :=
  List.replicate 3 (.offer (errorSignal "db")) ++ [.get "a", .get "b", .get "c"] ++ runOn 0 4 ++
    runOn 1 2 ++ runOn 2 2 ++ [.expire (dedupKey "db")] ++ runOn 1 2 ++ runOn 2 2

theorem two_losers_create :
    ∃ s, Trace (step {}) (fun _ e => Clean e) (init 3) twoLosers s ∧
      ¬ created "db" s.stores ≤ 1 + tally (step {}) (vanishes "db") (init 3) twoLosers := by
  obtain ⟨s, hs, hp⟩ := trace_of_replay (step {}) (fun _ e => Clean e) (init 3) twoLosers
    (fun s => decide (created "db" s.stores = 3)) (by decide +kernel)
  have hthree : created "db" s.stores = 3 := of_decide_eq_true hp
  have hone : tally (step {}) (vanishes "db") (init 3) twoLosers = 1 := by decide +kernel
  exact ⟨s, hs, by omega⟩

end Ims.DedupWindows
