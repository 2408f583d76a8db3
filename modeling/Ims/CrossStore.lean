import Ims.Retries

namespace Ims.CrossStore

open Library.Text Library.Runs Library.Tables Library.Slots Models Mongo PostgresRepo RedisCache
  Ingestion Service WorkerSteps ServiceSteps WorkerMoves WorkerFrames Integrity Effects Retries
open Workers (Stores Run Pc placeholder)

structure Consistent (s : World) : Prop where
  backfilled : ∀ d ∈ s.stores.mongo, ∀ w, d.workItemId = some w →
    ∃ l ∈ s.stores.postgres.signalLinks, l.workItemId = w ∧ l.mongoSignalId = d.id
  linkedItem : ∀ l ∈ s.stores.postgres.signalLinks, ∃ wi ∈ s.stores.postgres.workItems,
    wi.id = l.workItemId ∧ wi.componentId = l.componentId
  linkedDocument : ∀ l ∈ s.stores.postgres.signalLinks, ∃ d ∈ s.stores.mongo,
    d.id = l.mongoSignalId ∧ d.componentId = l.componentId ∧ d.severity = l.severity.value
  linkedOnce : (s.stores.postgres.signalLinks.map SignalLink.mongoSignalId).Nodup
  keys : ∀ c v, s.stores.redis.strings (dedupKey c) = some v →
    (∃ d ∈ s.stores.mongo, d.componentId = c ∧ v = placeholder d.id) ∨
      ∃ wi ∈ s.stores.postgres.workItems, wi.componentId = c ∧ v = str wi.id
  items : ∀ wi ∈ s.stores.postgres.workItems, ∃ r ∈ s.runs,
    (∃ d ∈ s.stores.mongo, d.id = r.mongoId) ∧ wi.componentId = r.sig.componentId ∧
      wi.componentType = r.sig.componentType ∧ wi.severity = r.sig.severity ∧
        wi.startTime = r.sig.timestamp.instant

theorem document_of_run {st : Stores} {runs : List Run} (h : DocsWf st runs) {r : Run} (hr : r ∈ runs)
    (hstored : stored r.pc = true) :
    ∃ d ∈ st.mongo, d.id = r.mongoId ∧ d.componentId = r.sig.componentId ∧
      d.severity = r.sig.severity.value := by
  obtain ⟨d, hd, hsource⟩ := List.mem_map.mp (h.ofRun r hr hstored)
  obtain ⟨now, hbuilt⟩ := h.built r hr
  have hid : d.id = r.rawDoc.id := by rw [← hsource]; rfl
  rw [hbuilt] at hsource
  have hcomp := congrArg Document.componentId hsource
  have hsev := congrArg Document.severity hsource
  exact ⟨d, hd, hid, hcomp, hsev⟩

theorem item_of_run {st : Stores} {runs : List Run} (h : ItemsWf st runs) {r : Run} (hr : r ∈ runs)
    {w : Int} (hw : workItemOf r.pc = some w) :
    ∃ wi ∈ st.postgres.workItems, wi.id = w ∧ wi.componentId = r.sig.componentId := by
  obtain ⟨_, horigin, hid, hcomp⟩ := h.ofRun r hr w hw
  obtain ⟨wi, hwi, rfl⟩ := List.mem_map.mp horigin
  exact ⟨wi, hwi, hid, hcomp⟩

theorem consistent_of_wf {s : World} (h : Wf s) : Consistent s where
  backfilled := h.backfill
  linkedItem l hl := by
    obtain ⟨r, hr, hlinked, hlr⟩ := h.links.ofLink l hl
    rw [hlr]
    exact item_of_run h.items hr (stored_of_linked hlinked).2
  linkedDocument l hl := by
    obtain ⟨r, hr, hlinked, hlr⟩ := h.links.ofLink l hl
    rw [hlr]
    exact document_of_run h.docs hr (stored_of_linked hlinked).1
  linkedOnce := h.links.ids
  keys c v hv := by
    rcases h.keys c v hv with ⟨r, hr, hclaim, hcomp, hval⟩ | ⟨_, horigin, hcomp, hval⟩
    · obtain ⟨d, hd, hid, hdcomp, _⟩ := document_of_run h.docs hr (stored_of_claiming hclaim)
      exact .inl ⟨d, hd, hdcomp.trans hcomp, by rw [hval, hid]⟩
    · obtain ⟨wi, hwi, rfl⟩ := List.mem_map.mp horigin
      exact .inr ⟨wi, hwi, hcomp, hval⟩
  items wi hwi := by
    obtain ⟨r, hr, hstored, now, hnew⟩ := h.items.ofItem (origin wi) (List.mem_map_of_mem hwi)
    obtain ⟨d, hd, hid, _⟩ := document_of_run h.docs hr hstored
    exact ⟨r, hr, ⟨d, hd, hid⟩, congrArg WorkItem.componentId hnew,
      congrArg WorkItem.componentType hnew, congrArg WorkItem.severity hnew,
      congrArg WorkItem.startTime hnew⟩

theorem not_lost_of_clean {s : World} {e : Event} (h : Clean e) : lostWithRetryLeft s e = false := by
  cases e with
  | run k o =>
      cases o with
      | ok | fail => rfl
      | lost => cases h
  | _ => rfl

/-- The stores agree in every reachable state, whatever operations fail without
effect and whichever runs and requests are cut short; and no signal gives rise
to two work items. -/
theorem cross_store_integrity {cfg : Settings} {n : Nat} {es : List Event} {s : World}
    (h : Trace (step cfg) (fun _ e => Clean e) (init n) es s) :
    Consistent s ∧ ∀ k, tally (step cfg) (effectOf k itemsAdded) (init n) es ≤ 1 :=
  ⟨consistent_of_wf (wf_trace h fun _ _ => id),
    item_writeOnce.tally (h.mono fun _ _ => not_lost_of_clean)⟩

def cutShort : List Event :=
  [.offer (errorSignal "db"), .offer (errorSignal "db"), .get "a"] ++ runOn 0 6 ++
    List.replicate 3 (.run 0 (.fail .storeError)) ++ [.get "b"] ++ runOn 1 5 ++ [.cancelRun 1]

theorem cross_store_integrity_cut_short :
    ∃ s, s.stores.postgres.signalLinks.length = 1 ∧ Consistent s := by
  obtain ⟨s, hs, hp⟩ := trace_of_replay (step {}) (fun _ e => Clean e) (init 2) cutShort
    (fun s => decide (s.stores.postgres.signalLinks.length = 1)) (by decide +kernel)
  exact ⟨s, of_decide_eq_true hp, (cross_store_integrity hs).1⟩

end Ims.CrossStore
