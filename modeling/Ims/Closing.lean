import Ims.CrossStore
import Ims.RcaGate

namespace Ims.Closing

open Library.Text Library.Runs Library.Slots Models States PostgresRepo RedisCache Ingestion Service
  WorkerSteps ApiSteps ServiceSteps WorkerMoves WorkerFrames Rows Integrity Effects LifeCycle Requests
  RcaGate
open Workers (Stores Run Pc Outcome placeholder)
open IncidentsApi (Request)

def windowOf (st : Stores) (c : String) : Option String := st.redis.strings (dedupKey c)

def clears (s : World) : Event → Option (Int × String)
  | .request k o => if takesEffect o then (s.requests[k]?).bind fun q => match q.pc with
      | .clearDedup w wi _ => some (w, wi.componentId)
      | _ => none
    else none
  | _ => none

def publishes (s : World) : Event → Option (Int × String)
  | .run k .ok => (s.runs[k]?).bind fun r => match r.pc with
      | .publish won w =>
          if won && (windowOf s.stores r.sig.componentId).isNone then none
          else some (w, r.sig.componentId)
      | _ => none
  | _ => none

def expires (c : String) : Event → Bool
  | .expire key => decide (key = dedupKey c)
  | _ => false

inductive KeyMove (s : World) (e : Event) (c : String) : Option String → Prop
  | keep : KeyMove s e c (windowOf s.stores c)
  | expire (he : expires c e = true) : KeyMove s e c none
  | clear (w) (he : clears s e = some (w, c)) : KeyMove s e c none
  | claim (m) (hkey : windowOf s.stores c = none) : KeyMove s e c (some (placeholder m))
  | publish (w) (he : publishes s e = some (w, c)) : KeyMove s e c (some (str w))

variable {cfg : Settings} {s t : World} {e : Event} {c : String}

theorem dedupKey_ne {d : String} (h : c ≠ d) : dedupKey c ≠ dedupKey d :=
  fun he => h (dedupKey_injective he)

theorem keyMove_update {d : String} {v : Option String} (st : Stores)
    (hother : windowOf st c = windowOf s.stores c) (hown : c = d → KeyMove s e c v) :
    KeyMove s e c (Function.update st.redis.strings (dedupKey d) v (dedupKey c)) := by
  by_cases hc : c = d
  · rw [hc, Function.update_self, ← hc]
    exact hown hc
  · rw [Function.update_of_ne (dedupKey_ne hc)]
    unfold windowOf at hother
    rw [hother]
    exact .keep

theorem perform_keyMove {k : Nat} {r : Run} (hk : s.runs[k]? = some r) (c : String) :
    KeyMove s (.run k .ok) c (windowOf (r.perform s.clock s.stores).1 c) := by
  have hstep := perform_runStep s.clock s.stores r
  generalize (r.perform s.clock s.stores).1 = st, r.resume (r.perform s.clock s.stores).2 = r' at hstep
  cases hstep with
  | win hpc hkey => exact keyMove_update s.stores rfl fun hc => .claim _ (by rw [hc]; exact hkey)
  | publishOver w v hpc hkey =>
      refine keyMove_update s.stores rfl fun hc => .publish w ?_
      have hsome : windowOf s.stores r.sig.componentId = some v := hkey
      simp [publishes, hk, hpc, hsome, hc]
  | publishAnyway w hpc =>
      refine keyMove_update s.stores rfl fun hc => .publish w ?_
      simp [publishes, hk, hpc, hc]
  | _ => exact .keep

theorem effect_keyMove {k : Nat} {o : Outcome} {q : Request} (hk : s.requests[k]? = some q)
    (c : String) : KeyMove s (.request k o) c (windowOf (q.attempt o s.clock s.stores).1 c) := by
  cases o with
  | fail e => exact .keep
  | ok | lost =>
      simp only [Request.attempt]
      have heffect := perform_effect s.clock s.stores q
      generalize (q.perform s.clock s.stores).1 = st at heffect
      cases heffect with
      | clearDedup w wi result hpc =>
          refine keyMove_update s.stores rfl fun hc => .clear w ?_
          simp [clears, takesEffect, hk, hpc, hc]
      | _ => exact .keep

theorem step_keyMove (hs : step cfg s e = some t) (he : Clean e) (c : String) :
    KeyMove s e c (windowOf t.stores c) := by
  have hmove := step_move hs
  generalize t.stores = st, t.runs = runs, t.requests = requests at hmove
  cases hmove with
  | run o hk _ _ =>
      cases o with
      | ok => exact perform_keyMove hk c
      | fail e => exact .keep
      | lost => cases he
  | request o hk _ => exact effect_keyMove hk c
  | expire key =>
      by_cases hc : key = dedupKey c
      · subst hc
        simp only [windowOf, Redis.delete, Function.update_self]
        exact .expire (decide_eq_true rfl)
      · simp only [windowOf, Redis.delete, Function.update_of_ne (Ne.symm hc)]
        exact .keep
  | _ => exact .keep

theorem clears_key {w : Int} (h : clears s e = some (w, c)) (hs : step cfg s e = some t) :
    windowOf t.stores c = none := by
  have hmove := step_move hs
  generalize t.stores = st, t.runs = runs, t.requests = requests at hmove
  cases hmove with
  | @request k q o hk _ =>
      simp only [clears, hk, Option.bind_some] at h
      split at h
      · next ho =>
        split at h
        · next v wi result hpc =>
          cases h
          cases o with
          | fail => cases ho
          | ok | lost =>
              simp only [Request.attempt, Request.perform, hpc, windowOf, clearDedup, Redis.delete,
                Function.update_self]
        · cases h
      · cases h
  | quiet e he =>
      cases e with
      | offer | getTimeout | cancelIdle | setClock => cases h
      | _ => cases he
  | _ => cases h

theorem clears_component (hgate : GateWf s) {w : Int} (h : clears s e = some (w, c)) :
    (∃ wi ∈ s.stores.postgres.workItems, wi.id = w) ∧
      ∀ wi ∈ s.stores.postgres.workItems, wi.id = w → wi.componentId = c := by
  cases e with
  | request k o =>
      simp only [clears] at h
      split at h
      · obtain ⟨q, hk, h⟩ := Option.bind_eq_some_iff.mp h
        split at h
        · next v wi result hpc =>
          cases h
          have hq := (hgate.requests q (List.mem_of_getElem? hk)).1
          rw [hpc] at hq
          obtain ⟨⟨hid, horigin⟩, _⟩ := hq
          refine ⟨?_, fun row hrow hrowid => ?_⟩
          · obtain ⟨row, hrow, heq⟩ := List.mem_map.mp horigin
            have hrowid : row.id = wi.id := by simpa [origin, counted] using congrArg WorkItem.id heq
            exact ⟨row, hrow, hrowid.trans hid⟩
          · have heq := origin_of_snapshot hgate.rows.ids ⟨hid, horigin⟩ hrow hrowid
            simpa [origin, counted] using congrArg WorkItem.componentId heq
        · cases h
      · cases h
  | _ => cases h

def ReleasesOwn (s : World) (e : Event) (t : World) : Prop :=
  ∀ w c, clears s e = some (w, c) → ∀ wi ∈ s.stores.postgres.workItems, wi.id = w →
    windowOf t.stores wi.componentId = windowOf s.stores wi.componentId ∨
      windowOf s.stores wi.componentId = some (str w)

def ownsWindow (s : World) (e : Event) : Bool :=
  (clears s e).all fun (w, c) => (windowOf s.stores c).all fun v => decide (v = str w)

theorem step_releases_iff (hgate : GateWf s) (hs : step cfg s e = some t) :
    ReleasesOwn s e t ↔ ownsWindow s e = true := by
  unfold ReleasesOwn ownsWindow
  cases hclear : clears s e with
  | none => simp
  | some p =>
      obtain ⟨w, c⟩ := p
      obtain ⟨⟨wi, hwi, hid⟩, hcomponent⟩ := clears_component hgate hclear
      have hgone := clears_key hclear hs
      constructor
      · intro h
        have hkey := h w c rfl wi hwi hid
        rw [hcomponent wi hwi hid, hgone] at hkey
        rcases hkey with hkey | hkey
        · simp [← hkey]
        · simp [hkey]
      · rintro h _ _ ⟨⟩ wi hwi hid
        rw [hcomponent wi hwi hid, hgone]
        cases hkey : windowOf s.stores c with
        | none => exact .inl rfl
        | some v =>
            simp only [hkey, Option.all_some, decide_eq_true_iff] at h
            exact .inr (congrArg some h)

/-- The window of item j ends: the key expires, or j is closed, or another item
is published over it. -/
def endsWindow (c : String) (j : Int) (s : World) (e : Event) : Bool :=
  expires c e || decide (clears s e = some (j, c)) ||
    (publishes s e).any fun (w, d) => decide (d = c ∧ w ≠ j)

def joins (j : Int) : Pc → Bool
  | .insertSignal | .claim | .getOpenWorkItem => true
  | .increment w | .addLink w | .backfill w | .upsertMetric w | .finish w => decide (w = j)
  | .create _ | .publish _ _ | .pushLiveFeed _ | .dispatch _ => false

theorem window_step {j : Int} (hkey : windowOf s.stores c = some (str j)) (he : Clean e)
    (hown : ownsWindow s e = true) (hopen : endsWindow c j s e = false) (hs : step cfg s e = some t) :
    windowOf t.stores c = some (str j) := by
  simp only [endsWindow, Bool.or_eq_false_iff, decide_eq_false_iff_not] at hopen
  obtain ⟨⟨hexpire, hclose⟩, hpublish⟩ := hopen
  have hmove := step_keyMove hs he c
  generalize windowOf t.stores c = v at hmove
  cases hmove with
  | keep => exact hkey
  | expire he =>
      rw [hexpire] at he
      cases he
  | clear w he =>
      simp only [ownsWindow, he, Option.all_some, hkey, decide_eq_true_iff] at hown
      rw [str_injective hown] at hclose
      exact absurd he hclose
  | claim m hnone =>
      rw [hkey] at hnone
      cases hnone
  | publish w he =>
      simp only [he, Option.any_some, true_and, decide_eq_false_iff_not, not_not] at hpublish
      rw [hpublish]

theorem joins_runStep {now : Int} {st st' : Stores} {r r' : Run} {j : Int}
    (h : RunStep now st r st' r') (hkey : windowOf st r.sig.componentId = some (str j))
    (hjoin : joins j r.pc = true) : joins j r'.pc = true := by
  cases h with
  | stay _ _ _ hpc => rwa [hpc]
  | win hpc hnone =>
      rw [windowOf] at hkey
      rw [keyOf, hkey] at hnone
      cases hnone
  | findGone hpc hget =>
      rw [getOpenWorkItem_str hkey] at hget
      cases hget
  | findItem w hpc hget =>
      rw [getOpenWorkItem_str hkey] at hget
      cases hget
      exact decide_eq_true rfl
  | insert | lose => rfl
  | create _ hpc | publishGone _ hpc | publishOver _ _ hpc | publishAnyway _ hpc | push _ hpc
  | dispatch _ _ hpc =>
      rw [hpc] at hjoin
      cases hjoin
  | increment w hpc | link w hpc | backfill w hpc | skipBackfill w hpc | meter w hpc =>
      rwa [hpc] at hjoin

def Joining (n : Nat) (c : String) (j : Int) (s : World) : Prop :=
  ∀ k r, n ≤ k → s.runs[k]? = some r → r.sig.componentId = c → joins j r.pc = true

theorem joining_step {n : Nat} {j : Int} (h : Joining n c j s)
    (hkey : windowOf s.stores c = some (str j)) (he : Clean e) (hs : step cfg s e = some t) :
    Joining n c j t := by
  intro k r hnk hk hc
  cases step_runMove hs hk with
  | new _ _ _ hpc =>
      rw [hpc]
      rfl
  | other _ hb => exact h k r hnk hb hc
  | attempt b o hb _ hrun _ =>
      subst hrun
      have hstep := attempt_runStep s.clock s.stores b he
      have hbc : b.sig.componentId = c := by rw [← hc, (runStep_sig hstep).1]
      exact joins_runStep hstep (by rwa [hbc]) (h k b hnk hb hbc)
  | finish b _ hb _ => exact h k b hnk hb hc
  | cancel b hb _ => exact h k b hnk hb hc

/-- What the clean-up after a close may do: each deletes a key only where that
holds the id of its own item; and while the window of an item j lasts, the key
holds j, and every signal that comes in then is attached to j and creates nothing. -/
structure OwnWindowsOnly (cfg : Settings) (n : Nat) (es : List Event) (s : World) : Prop where
  releases : Trace (step cfg) (fun s e => ∀ t, step cfg s e = some t → ReleasesOwn s e t) (init n) es s
  attaches : ∀ es₁ es₂ s₁ c j, es = es₁ ++ es₂ → Trace (step cfg) (fun _ _ => True) (init n) es₁ s₁ →
    windowOf s₁.stores c = some (str j) →
    Trace (step cfg) (fun s e => endsWindow c j s e = false) s₁ es₂ s →
      windowOf s.stores c = some (str j) ∧ Joining s₁.runs.length c j s ∧
        ∀ r ∈ s.runs, linkedTo r.pc = some j → linkOf r j ∈ s.stores.postgres.signalLinks

/-- Closing incidents releases only their own windows exactly in the runs in
which every clean-up finds the key absent or holding the item it is for. -/
theorem close_releases_own_window {n : Nat} {es : List Event}
    (h : Trace (step cfg) (fun _ e => Clean e) (init n) es s) :
    OwnWindowsOnly cfg n es s ↔
      Trace (step cfg) (fun s e => ownsWindow s e = true) (init n) es s := by
  have hgate {ok : World → Event → Prop} (h : Trace (step cfg) ok (init n) es s) :=
    h.with_invariant GateWf (gateWf_init n) fun _ _ _ hwf _ hs => gateWf_step hwf hs
  constructor
  · intro hkept
    exact (hgate hkept.releases).mono_step fun s e t he hs =>
      (step_releases_iff he.1 hs).mp (he.2 t hs)
  · intro howns
    refine ⟨(hgate howns).mono fun s e he t hs => (step_releases_iff he.1 hs).mpr he.2, ?_⟩
    rintro es₁ es₂ s₁ c j rfl h₁ hkey h₂
    have hwindow := (((h.split_at h₁).2.and (howns.split_at h₁).2).and h₂).invariant
      (fun s => windowOf s.stores c = some (str j) ∧ Joining s₁.runs.length c j s)
      ⟨hkey, fun k r hnk hk => by rw [List.getElem?_eq_none hnk] at hk; cases hk⟩
      fun s e t hI he hs => ⟨window_step hI.1 he.1.1 he.1.2 he.2 hs, joining_step hI.2 hI.1 he.1.1 hs⟩
    have hwf : Wf s := wf_trace h fun _ _ he => he
    exact ⟨hwindow.1, hwindow.2, fun r hr hlink => hwf.links.ofRun r hr j hlink⟩

def closedInWindow : List Event :=
  resolved ++ [.call (.closeIncident 1)] ++ requestOn 3 7 ++ [.offer (errorSignal "db"), .get "b"] ++
    runOn 1 10

theorem close_releases_own_window_closed_in_window :
    ∃ s : World, s.stores.postgres.workItems.map WorkItem.state = [.CLOSED, .OPEN] ∧
      OwnWindowsOnly {} 2 closedInWindow s := by
  obtain ⟨s, hs, hp⟩ := trace_of_replay (step {}) (fun s e => Clean e ∧ ownsWindow s e = true) (init 2)
    closedInWindow
    (fun s => decide (s.stores.postgres.workItems.map WorkItem.state = [.CLOSED, .OPEN]))
    (by decide +kernel)
  exact ⟨s, of_decide_eq_true hp,
    (close_releases_own_window (hs.mono fun _ _ he => he.1)).mpr (hs.mono fun _ _ he => he.2)⟩

def secondWindow : List Event :=
  resolved ++ [.expire (dedupKey "db"), .offer (errorSignal "db"), .get "b"] ++ runOn 1 10

def olderCloses : List Event :=
  [.call (.closeIncident 1)] ++ requestOn 3 7 ++ [.offer (errorSignal "db"), .get "c"] ++ runOn 2 3

theorem older_close_clears_newer_window :
    ∃ s, Trace (step {}) (fun _ e => Clean e) (init 2) (secondWindow ++ olderCloses) s ∧
      s.stores.postgres.workItems.length = 3 ∧
        ¬ OwnWindowsOnly {} 2 (secondWindow ++ olderCloses) s := by
  obtain ⟨s₁, h₁, hp⟩ := trace_of_replay (step {}) (fun _ e => Clean e) (init 2) secondWindow
    (fun s₁ => decide (windowOf s₁.stores "db" = some (str 2)) &&
      (replay (step {}) (fun s e => Clean e ∧ endsWindow "db" 2 s e = false) s₁ olderCloses).any
        fun s : World => decide (s.stores.postgres.workItems.length = 3) &&
          decide (windowOf s.stores "db" = some (placeholder "c"))) (by decide +kernel)
  obtain ⟨hkey, hp⟩ := Bool.and_eq_true_iff.mp hp
  obtain ⟨s, h₂, hp⟩ := trace_of_replay _ _ _ _ _ hp
  obtain ⟨hitems, hlost⟩ := Bool.and_eq_true_iff.mp hp
  refine ⟨s, h₁.trans (h₂.mono fun _ _ he => he.1), of_decide_eq_true hitems, fun h => ?_⟩
  have hheld := (h.attaches secondWindow olderCloses s₁ "db" 2 rfl (h₁.mono fun _ _ _ => trivial)
    (of_decide_eq_true hkey) (h₂.mono fun _ _ he => he.2)).1
  rw [of_decide_eq_true hlost] at hheld
  exact Workers.placeholder_ne_str _ _ (Option.some.inj hheld)

end Ims.Closing
