import Ims.RequestMoves
import Ims.CrossStore
import Ims.Requests

namespace Ims.LiveFeed

open Library.Text Library.Runs Library.SortedSet Library.Slots Models PostgresRepo RedisCache Ingestion
  Service WorkerSteps ApiSteps ServiceSteps WorkerMoves WorkerFrames Rows Integrity Effects LifeCycle
  Requests RequestMoves
open Workers (Stores Run Outcome)
open IncidentsApi (Request LiveEntry liveEntry liveFeed zremNext entriesOf liveEntry_feedMember)

inductive FeedMove (s : World) : Event → ZSet → Prop
  | keep (e) : FeedMove s e s.stores.redis.liveFeed
  | push {k r} (w) (hk : s.runs[k]? = some r) (hpc : r.pc = .pushLiveFeed w) :
      FeedMove s (.run k .ok) (zadd (feedMember w r.sig.componentId)
        (severityScore r.sig.severity.value) s.stores.redis.liveFeed)
  | remove {k o q} (w wi result member rest) (hk : s.requests[k]? = some q)
      (ho : takesEffect o = true) (hpc : q.pc = .zremMember w wi result member rest) :
      FeedMove s (.request k o) (zrem member s.stores.redis.liveFeed)

def unpushed : Workers.Pc → Option Int
  | .publish true w | .pushLiveFeed w => some w
  | .insertSignal | .claim | .create _ | .publish false _ | .dispatch _ | .getOpenWorkItem
  | .increment _ | .addLink _ | .backfill _ | .upsertMetric _ | .finish _ => none

structure FeedWf (s : World) : Prop where
  once : (zrange s.stores.redis.liveFeed).Nodup
  entries : ∀ e ∈ s.stores.redis.liveFeed, ∃ wi ∈ origins s.stores,
    e = (feedMember wi.id wi.componentId, severityScore wi.severity.value)
  own : ∀ r ∈ s.runs, ∀ w, unpushed r.pc = some w → ∃ now, newWorkItem r.sig w now ∈ origins s.stores
  alone : ∀ (j k : Nat) (r r' : Run) (w : Int), s.runs[j]? = some r → s.runs[k]? = some r' →
    unpushed r.pc = some w → unpushed r'.pc = some w → j = k
  absent : ∀ r ∈ s.runs, ∀ w, unpushed r.pc = some w →
    ∀ m ∈ zrange s.stores.redis.liveFeed, decodedId m ≠ some w

variable {cfg : Settings} {s t : World} {e : Event} {k : Nat} {w : Int}

theorem perform_feedMove {r : Run} (hk : s.runs[k]? = some r) :
    FeedMove s (.run k .ok) (r.perform s.clock s.stores).1.redis.liveFeed := by
  have hstep := perform_runStep s.clock s.stores r
  generalize (r.perform s.clock s.stores).1 = st, r.resume (r.perform s.clock s.stores).2 = r' at hstep
  cases hstep with
  | push w hpc => exact .push w hk hpc
  | _ => exact .keep _

theorem effect_feedMove {q : Request} {o : Outcome} (hk : s.requests[k]? = some q) :
    FeedMove s (.request k o) (q.attempt o s.clock s.stores).1.redis.liveFeed := by
  cases o with
  | fail e => exact .keep _
  | ok | lost =>
      have heffect := ApiSteps.perform_effect s.clock s.stores q
      simp only [Request.attempt]
      generalize (q.perform s.clock s.stores).1 = st at heffect
      cases heffect with
      | zrem w wi result member rest hpc => exact .remove w wi result member rest hk rfl hpc
      | flushRca | none | updateState | clearDedup => exact .keep _

theorem step_feedMove (hs : step cfg s e = some t) (he : Clean e) :
    FeedMove s e t.stores.redis.liveFeed := by
  have hmove := step_move hs
  generalize t.stores = st, t.runs = runs, t.requests = requests at hmove
  cases hmove with
  | run o hk _ _ =>
      cases o with
      | ok => exact perform_feedMove hk
      | fail e => exact .keep _
      | lost => cases he
  | request o hk _ => exact effect_feedMove hk
  | _ => exact .keep _

theorem runStep_unpushed {now : Int} {st st' : Stores} {r r' : Run} (h : RunStep now st r st' r')
    (hw : unpushed r'.pc = some w) :
    unpushed r.pc = some w ∨
      w = st.postgres.workItemsSeq + 1 ∧ newWorkItem r.sig w now ∈ origins st' ∧
        st'.redis.liveFeed = st.redis.liveFeed := by
  cases h with
  | stay _ _ _ hpc => exact .inl (hpc ▸ hw)
  | create won hpc =>
      cases won with
      | false => cases hw
      | true =>
          cases hw
          exact .inr ⟨rfl, List.mem_map_of_mem (List.mem_append_right _ (List.mem_singleton.mpr rfl)),
            rfl⟩
  | publishGone v hpc | publishOver v _ hpc =>
      cases hw
      exact .inl (by rw [hpc]; rfl)
  | insert | win | lose | publishAnyway | push | dispatch | findGone | findItem | increment | link
  | backfill | skipBackfill | meter => cases hw

theorem unpushed_item {pc : Workers.Pc} (h : unpushed pc = some w) : workItemOf pc = some w := by
  cases pc with
  | publish won v =>
      cases won with
      | true => exact h
      | false => cases h
  | pushLiveFeed v => exact h
  | _ => cases h

theorem attempt_pushLiveFeed {r : Run} {now : Int} {st : Stores} (hpc : r.pc = .pushLiveFeed w) :
    (r.attempt .ok now st).2 = r.goOn (.dispatch w) := by
  simp only [Run.attempt, Run.perform, hpc, Run.resume]

/-- A run that has yet to push an item had to do so before the step, or creates it now. -/
theorem unpushed_step {r : Run} (hs : step cfg s e = some t) (he : Clean e)
    (hr : t.runs[k]? = some r) (hw : unpushed r.pc = some w) :
    (∃ b, s.runs[k]? = some b ∧ b.sig = r.sig ∧ unpushed b.pc = some w ∧
        (e = .run k .ok → b.pc ≠ .pushLiveFeed w)) ∨
      runIndex e = some k ∧ w = s.stores.postgres.workItemsSeq + 1 ∧
        newWorkItem r.sig w s.clock ∈ origins t.stores ∧
          t.stores.redis.liveFeed = s.stores.redis.liveFeed := by
  cases step_runMove hs hr with
  | new _ _ _ hpc =>
      rw [hpc] at hw
      cases hw
  | other _ hb =>
      refine .inl ⟨r, hb, rfl, hw, ?_⟩
      rintro rfl hpc
      have hr' := (own_run hs hb (by simp [hpc])).2.2
      rw [attempt_pushLiveFeed hpc] at hr'
      rw [Option.some.inj (hr.symm.trans hr')] at hw
      cases hw
  | attempt b o hb hrun heq hst =>
      subst heq
      have hstep := attempt_runStep s.clock s.stores b he
      rcases runStep_unpushed hstep hw with hold | ⟨hseq, hnew, hfeed⟩
      · refine .inl ⟨b, hb, (runStep_sig hstep).1.symm, hold, ?_⟩
        rintro ⟨rfl⟩ hpc
        rw [attempt_pushLiveFeed hpc] at hw
        cases hw
      · refine .inr ⟨rfl, hseq, ?_, ?_⟩
        · rw [hst, (runStep_sig hstep).1]
          exact hnew
        · rw [hst, hfeed]
  | finish b v hb hpc =>
      rw [show Run.pc { b with status := .returned } = b.pc from rfl, hpc] at hw
      cases hw
  | cancel b hb heq => exact .inl ⟨b, hb, rfl, hw, fun h => by rw [heq] at h; cases h⟩

theorem origin_seq {st : Stores} (hrows : RowsWf st) {wi : WorkItem} (hwi : wi ∈ origins st) :
    wi.id ≤ st.postgres.workItemsSeq :=
  hrows.seq wi.id (ids_origins st ▸ List.mem_map_of_mem hwi)

/-- A member that decodes to an item is of that item, which is there. -/
theorem FeedWf.member (h : FeedWf s) {m : String} (hm : m ∈ zrange s.stores.redis.liveFeed) :
    ∃ wi ∈ origins s.stores, m = feedMember wi.id wi.componentId := by
  obtain ⟨e, he, rfl⟩ := List.mem_map.mp hm
  obtain ⟨wi, hwi, rfl⟩ := h.entries e he
  exact ⟨wi, hwi, rfl⟩

theorem FeedWf.decoded_seq (h : FeedWf s) (hrows : RowsWf s.stores) {m : String}
    (hm : m ∈ zrange s.stores.redis.liveFeed) (hid : decodedId m = some w) :
    w ≤ s.stores.postgres.workItemsSeq := by
  obtain ⟨wi, hwi, rfl⟩ := h.member hm
  rw [decodedId_feedMember] at hid
  cases hid
  exact origin_seq hrows hwi

theorem unpushed_seq (hwf : Wf s) {r : Run} (hr : r ∈ s.runs) (hw : unpushed r.pc = some w) :
    w ≤ s.stores.postgres.workItemsSeq := by
  obtain ⟨wi, hwi, rfl, _⟩ := hwf.items.ofRun r hr w (unpushed_item hw)
  exact origin_seq hwf.rows hwi

theorem entries_step (h : FeedWf s) (hs : step cfg s e = some t) (he : Clean e) :
    (zrange t.stores.redis.liveFeed).Nodup ∧
      ∀ e ∈ t.stores.redis.liveFeed, ∃ wi ∈ origins t.stores,
        e = (feedMember wi.id wi.componentId, severityScore wi.severity.value) := by
  have hgrow := (step_grows hs).items
  have hold : ∀ e ∈ s.stores.redis.liveFeed, ∃ wi ∈ origins t.stores,
      e = (feedMember wi.id wi.componentId, severityScore wi.severity.value) := by
    intro e he
    obtain ⟨wi, hwi, hentry⟩ := h.entries e he
    exact ⟨wi, hgrow wi hwi, hentry⟩
  have hmove := step_feedMove hs he
  generalize t.stores.redis.liveFeed = set at hmove
  cases hmove with
  | keep => exact ⟨h.once, hold⟩
  | @push k r w hk hpc =>
      refine ⟨nodup_zadd h.once, fun e he => ?_⟩
      rcases mem_zadd.mp he with rfl | ⟨he, _⟩
      · obtain ⟨now, hnew⟩ := h.own r (List.mem_of_getElem? hk) w (by rw [hpc]; rfl)
        exact ⟨_, hgrow _ hnew, rfl⟩
      · exact hold e he
  | remove => exact ⟨nodup_zrem h.once, fun e he => hold e (mem_zrem.mp he).1⟩

theorem absent_step (h : FeedWf s) (hwf : Wf s) (hs : step cfg s e = some t) (he : Clean e) {r : Run}
    (hr : t.runs[k]? = some r) (hw : unpushed r.pc = some w) :
    ∀ m ∈ zrange t.stores.redis.liveFeed, decodedId m ≠ some w := by
  rcases unpushed_step hs he hr hw with ⟨b, hb, _, hbw, hnot⟩ | ⟨_, hseq, _, hfeed⟩
  · have hold := h.absent b (List.mem_of_getElem? hb) w hbw
    have hmove := step_feedMove hs he
    generalize t.stores.redis.liveFeed = set at hmove
    cases hmove with
    | keep => exact hold
    | @push j p v hj hpc =>
        intro m hm hid
        rcases zrange_zadd hm with rfl | hm
        · rw [decodedId_feedMember] at hid
          cases hid
          -- only one run has this item to push, and it has just done so
          obtain rfl := h.alone j k p b w hj hb (by rw [hpc]; rfl) hbw
          cases Option.some.inj (hj.symm.trans hb)
          exact hnot rfl hpc
        · exact hold m hm hid
    | remove => exact fun m hm => hold m (zrange_zrem.mp hm).1
  · intro m hm hid
    rw [hfeed] at hm
    have := h.decoded_seq hwf.rows hm hid
    omega

theorem alone_step (h : FeedWf s) (hwf : Wf s) (hs : step cfg s e = some t) (he : Clean e)
    {j : Nat} {r r' : Run} (hr : t.runs[j]? = some r) (hr' : t.runs[k]? = some r')
    (hw : unpushed r.pc = some w) (hw' : unpushed r'.pc = some w) : j = k := by
  rcases unpushed_step hs he hr hw with ⟨b, hb, _, hbw, _⟩ | ⟨hj, hseq, _⟩ <;>
    rcases unpushed_step hs he hr' hw' with ⟨b', hb', _, hbw', _⟩ | ⟨hk, hseq', _⟩
  · exact h.alone j k b b' w hb hb' hbw hbw'
  · have := unpushed_seq hwf (List.mem_of_getElem? hb) hbw
    omega
  · have := unpushed_seq hwf (List.mem_of_getElem? hb') hbw'
    omega
  · exact Option.some.inj (hj.symm.trans hk)

theorem own_item_step (h : FeedWf s) (hs : step cfg s e = some t) (he : Clean e) {r : Run}
    (hr : t.runs[k]? = some r) (hw : unpushed r.pc = some w) :
    ∃ now, newWorkItem r.sig w now ∈ origins t.stores := by
  rcases unpushed_step hs he hr hw with ⟨b, hb, hsig, hbw, _⟩ | ⟨_, _, hnew, _⟩
  · obtain ⟨now, hnew⟩ := h.own b (List.mem_of_getElem? hb) w hbw
    exact ⟨now, (step_grows hs).items _ (hsig ▸ hnew)⟩
  · exact ⟨_, hnew⟩

theorem feedWf_init (n : Nat) : FeedWf (init n) := by
  refine ⟨List.nodup_nil, ?_, ?_, ?_, ?_⟩
  · exact fun _ he => absurd he List.not_mem_nil
  · exact fun _ hr => absurd hr List.not_mem_nil
  · intro j k r r' w hj
    cases hj
  · exact fun _ hr => absurd hr List.not_mem_nil

theorem feedWf_step (h : FeedWf s) (hwf : Wf s) (hs : step cfg s e = some t) (he : Clean e) :
    FeedWf t := by
  obtain ⟨honce, hentries⟩ := entries_step h hs he
  refine ⟨honce, hentries, ?_, ?_, ?_⟩
  · intro r hr w hw
    obtain ⟨k, hk⟩ := List.mem_iff_getElem?.mp hr
    exact own_item_step h hs he hk hw
  · exact fun j k r r' w hj hk hw hw' => alone_step h hwf hs he hj hk hw hw'
  · intro r hr w hw
    obtain ⟨k, hk⟩ := List.mem_iff_getElem?.mp hr
    exact absent_step h hwf hs he hk hw

theorem FeedWf.isEntryOf_iff (h : FeedWf s) {m : String} (hm : m ∈ zrange s.stores.redis.liveFeed)
    (i : Int) : isEntryOf i m = true ↔ decodedId m = some i := by
  obtain ⟨wi, _, rfl⟩ := h.member hm
  rw [isEntryOf_feedMember, decodedId_feedMember, Option.some.injEq, eq_comm]

/-- A component whose id starts as a member of the first item does, while the
close of that item is before its scan. -/
def scanAmongLookalikes : List Event :=
  resolved ++ [.offer (errorSignal "1|db"), .get "b"] ++ runOn 1 10 ++ [.call (.closeIncident 1)] ++
    requestOn 3 3

end Ims.LiveFeed
