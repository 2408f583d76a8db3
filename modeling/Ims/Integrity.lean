import Ims.Rows

namespace Ims.Integrity

open Library.Text Library.Runs Library.Tables Library.Slots Models Mongo PostgresRepo RedisCache
  Ingestion Service WorkerSteps WorkerMoves WorkerFrames Rows
open Workers (Stores Run Pc rawDoc placeholder)

structure DocsWf (st : Stores) (runs : List Run) : Prop where
  oids : (runs.map Run.mongoId).Nodup
  built : ∀ r ∈ runs, ∃ now, r.rawDoc = rawDoc r.sig r.mongoId now
  ids : (st.mongo.map Document.id).Nodup
  ofDoc : ∀ d ∈ sources st, ∃ r ∈ runs, stored r.pc ∧ r.rawDoc = d
  ofRun : ∀ r ∈ runs, stored r.pc → r.rawDoc ∈ sources st

structure ItemsWf (st : Stores) (runs : List Run) : Prop where
  ofItem : ∀ wi ∈ origins st, ∃ r ∈ runs, stored r.pc ∧ ∃ now, wi = newWorkItem r.sig wi.id now
  ofRun : ∀ r ∈ runs, ∀ w, workItemOf r.pc = some w →
    ∃ wi ∈ origins st, wi.id = w ∧ wi.componentId = r.sig.componentId

def KeysWf (st : Stores) (runs : List Run) : Prop :=
  ∀ c v, st.redis.strings (dedupKey c) = some v →
    (∃ r ∈ runs, claiming r.pc ∧ r.sig.componentId = c ∧ v = placeholder r.mongoId) ∨
      ∃ wi ∈ origins st, wi.componentId = c ∧ v = str wi.id

structure LinksWf (st : Stores) (runs : List Run) : Prop where
  ids : (st.postgres.signalLinks.map SignalLink.mongoSignalId).Nodup
  ofLink : ∀ l ∈ st.postgres.signalLinks, ∃ r ∈ runs, linkedTo r.pc = some l.workItemId ∧
    l = linkOf r l.workItemId
  ofRun : ∀ r ∈ runs, ∀ w, linkedTo r.pc = some w → linkOf r w ∈ st.postgres.signalLinks

def BackfillWf (st : Stores) : Prop :=
  ∀ d ∈ st.mongo, ∀ w, d.workItemId = some w →
    ∃ l ∈ st.postgres.signalLinks, l.workItemId = w ∧ l.mongoSignalId = d.id

theorem ids_sources (st : Stores) : (sources st).map Document.id = st.mongo.map Document.id := by
  simp [sources, source, Function.comp_def]

theorem stored_of_linked {pc : Pc} {w : Int} (h : linkedTo pc = some w) :
    stored pc = true ∧ workItemOf pc = some w := by
  cases pc with
  | backfill | upsertMetric | finish => exact ⟨rfl, h⟩
  | _ => cases h

theorem stored_of_claiming {pc : Pc} (h : claiming pc = true) : stored pc = true := by
  cases pc with
  | create | publish => rfl
  | _ => cases h

variable {s : World} {e : Event} {st : Stores} {runs : List Run}

theorem docsWf_move (h : DocsWf s.stores s.runs) (hmove : WorkerMove s e st runs) : DocsWf st runs := by
  cases hmove with
  | env st htame =>
      have hsources : sources st = sources s.stores := by rw [sources, sources, htame.mongo]
      exact ⟨h.oids, h.built, htame.mongo ▸ h.ids, hsources ▸ h.ofDoc, hsources ▸ h.ofRun⟩
  | get oid sig hoid =>
      refine ⟨nodup_push h.oids hoid, forall_push h.built ⟨s.clock, rfl⟩, h.ids, ?_, ?_⟩
      · intro d hd
        obtain ⟨r, hr, hrest⟩ := h.ofDoc d hd
        exact ⟨r, List.mem_append_left _ hr, hrest⟩
      · exact forall_push h.ofRun fun hstored => by cases hstored
  | @run k r st r' _ hk _ _ hstep =>
      obtain ⟨hsig, hdoc⟩ := runStep_sig hstep
      have hr := List.mem_of_getElem? hk
      have hbuilt : ∃ now, r'.rawDoc = rawDoc r'.sig r'.mongoId now := by
        rw [runStep_mongoId hstep, hdoc, hsig]
        exact h.built r hr
      have hoids : ((s.runs.set k r').map Run.mongoId).Nodup := by
        rw [map_set hk (runStep_mongoId hstep)]
        exact h.oids
      rcases runStep_docs hstep with ⟨hpc, hpc', hnew, hmongo⟩ | ⟨hpc, hsources⟩
      · obtain ⟨now, hdoc'⟩ := h.built r hr
        have hsources : sources st = sources s.stores ++ [r.rawDoc] := by
          rw [sources, sources, hmongo, List.map_append, hdoc']
          rfl
        refine ⟨hoids, forall_set h.built hbuilt, ?_, ?_, ?_⟩
        · rw [hmongo]
          exact nodup_push h.ids hnew
        · rw [hsources]
          refine forall_push (fun d hd => ?_) ⟨r', mem_set_self hk, by rw [hpc']; rfl, hdoc⟩
          refine exists_set hk (fun hP => ?_) (h.ofDoc d hd)
          rw [hpc] at hP
          cases hP.1
        · rw [hsources]
          refine forall_set (fun b hb hstored => List.mem_append_left _ (h.ofRun b hb hstored)) ?_
          intro _
          rw [hdoc]
          exact List.mem_append_right _ (List.mem_singleton.mpr rfl)
      · have hids : (st.mongo.map Document.id).Nodup := by
          rw [← ids_sources, hsources, ids_sources]
          exact h.ids
        refine ⟨hoids, forall_set h.built hbuilt, hids, ?_, ?_⟩
        · intro d hd
          rw [hsources] at hd
          exact exists_set hk (fun hP => by rwa [hpc, hdoc]) (h.ofDoc d hd)
        · rw [hsources]
          exact forall_set h.ofRun fun hstored => by
            rw [hdoc]
            exact h.ofRun r hr (hpc ▸ hstored)

theorem itemsWf_move (h : ItemsWf s.stores s.runs) (hkeys : KeysWf s.stores s.runs)
    (hmove : WorkerMove s e st runs) : ItemsWf st runs := by
  cases hmove with
  | env st htame =>
      have horigins := htame.origins
      exact ⟨horigins ▸ h.ofItem, horigins ▸ h.ofRun⟩
  | get oid sig hoid =>
      refine ⟨?_, ?_⟩
      · intro wi hwi
        obtain ⟨r, hr, hrest⟩ := h.ofItem wi hwi
        exact ⟨r, List.mem_append_left _ hr, hrest⟩
      · exact forall_push h.ofRun fun w hw => by cases hw
  | @run k r st r' _ hk _ _ hstep =>
      obtain ⟨hsig, _⟩ := runStep_sig hstep
      have hr := List.mem_of_getElem? hk
      have hstored : stored r.pc = true → stored r'.pc = true := by
        rcases runStep_docs hstep with ⟨hpc, _⟩ | ⟨hpc, _⟩
        · rw [hpc]
          nofun
        · rw [hpc]
          exact id
      rcases runStep_items hstep with ⟨won, hpc, hpc', hitems, _⟩ | ⟨horigins, _, hwork⟩
      · have horigins : origins st = origins s.stores ++
            [newWorkItem r.sig (s.stores.postgres.workItemsSeq + 1) s.clock] := by
          rw [origins, origins, hitems, List.map_append]
          rfl
        refine ⟨?_, ?_⟩
        · rw [horigins]
          refine forall_push (fun wi hwi => ?_)
            ⟨r', mem_set_self hk, by rw [hpc']; rfl, s.clock, by rw [hsig]; rfl⟩
          exact exists_set hk (fun hP => ⟨hstored hP.1, by rw [hsig]; exact hP.2⟩) (h.ofItem wi hwi)
        · rw [horigins]
          refine forall_set ?_ ?_
          · intro b hb w hw
            obtain ⟨wi, hwi, hrest⟩ := h.ofRun b hb w hw
            exact ⟨wi, List.mem_append_left _ hwi, hrest⟩
          · intro w hw
            rw [hpc'] at hw
            cases hw
            exact ⟨_, List.mem_append_right _ (List.mem_singleton.mpr rfl), rfl, by rw [hsig]; rfl⟩
      · refine ⟨?_, ?_⟩
        · rw [horigins]
          intro wi hwi
          exact exists_set hk (fun hP => ⟨hstored hP.1, by rw [hsig]; exact hP.2⟩) (h.ofItem wi hwi)
        · rw [horigins]
          refine forall_set h.ofRun ?_
          intro w hw
          rw [hsig]
          rcases hwork with hpc | ⟨w', _, hpc', hfound⟩
          · exact h.ofRun r hr w (hpc ▸ hw)
          · rw [hpc'] at hw
            cases hw
            -- the id read from the key is one that was printed there
            obtain ⟨v, hv, hint⟩ := getOpenWorkItem_some hfound
            rcases hkeys _ v hv with ⟨b, _, _, _, rfl⟩ | ⟨wi, hwi, hcomp, rfl⟩
            · rw [Workers.int_placeholder] at hint
              cases hint
            · rw [int_str] at hint
              exact ⟨wi, hwi, Option.some.inj hint, hcomp⟩

theorem keysWf_move (h : KeysWf s.stores s.runs) (hitems : ItemsWf s.stores s.runs)
    (hmove : WorkerMove s e st runs) : KeysWf st runs := by
  cases hmove with
  | env st htame =>
      intro c v hv
      rw [htame.origins]
      rcases htame.keys (dedupKey c) with hkey | hkey
      · exact h c v (hkey ▸ hv)
      · rw [hkey] at hv
        cases hv
  | get oid sig hoid =>
      intro c v hv
      rcases h c v hv with ⟨r, hr, hrest⟩ | hitem
      · exact .inl ⟨r, List.mem_append_left _ hr, hrest⟩
      · exact .inr hitem
  | @run k r st r' _ hk _ _ hstep =>
      obtain ⟨hsig, _⟩ := runStep_sig hstep
      have hid := runStep_mongoId hstep
      have hr := List.mem_of_getElem? hk
      have hgrow : ∀ wi ∈ origins s.stores, wi ∈ origins st := by
        intro wi hwi
        rcases runStep_items hstep with ⟨_, _, _, hitems, _⟩ | ⟨horigins, _⟩
        · rw [origins, hitems, List.map_append]
          exact List.mem_append_left _ hwi
        · rwa [horigins]
      -- the entries of other components, or of this one while its claim stands
      have hkeep : ∀ c v, s.stores.redis.strings (dedupKey c) = some v →
          (c = r.sig.componentId → claiming r.pc = true → claiming r'.pc = true) →
          (∃ b ∈ s.runs.set k r', claiming b.pc ∧ b.sig.componentId = c ∧ v = placeholder b.mongoId) ∨
            ∃ wi ∈ origins st, wi.componentId = c ∧ v = str wi.id := by
        intro c v hv hclaim
        rcases h c v hv with hrun | ⟨wi, hwi, hrest⟩
        · refine .inl (exists_set hk ?_ hrun)
          rintro ⟨hP, hcomp, hval⟩
          exact ⟨hclaim hcomp.symm hP, hsig ▸ hcomp, hid ▸ hval⟩
        · exact .inr ⟨wi, hgrow wi hwi, hrest⟩
      intro c v hv
      rcases runStep_keys hstep with ⟨_, hpc', _, hstrings⟩ | ⟨won, w, hpc, _, _, _, hstrings⟩ |
        ⟨hstrings, hclaim⟩
      · by_cases hc : c = r.sig.componentId
        · rw [hstrings, hc, keyOf, Function.update_self] at hv
          exact .inl ⟨r', mem_set_self hk, by rw [hpc']; rfl, by rw [hsig, hc],
            hid ▸ (Option.some.inj hv).symm⟩
        · rw [hstrings, keyOf, Function.update_of_ne (fun he => hc (dedupKey_injective he))] at hv
          exact hkeep c v hv fun he => absurd he hc
      · by_cases hc : c = r.sig.componentId
        · rw [hstrings, hc, keyOf, Function.update_self] at hv
          obtain ⟨wi, hwi, hid, hcomp⟩ := hitems.ofRun r hr w (by rw [hpc]; rfl)
          exact .inr ⟨wi, hgrow wi hwi, by rw [hcomp, hc], by rw [hid]; exact (Option.some.inj hv).symm⟩
        · rw [hstrings, keyOf, Function.update_of_ne (fun he => hc (dedupKey_injective he))] at hv
          exact hkeep c v hv fun he => absurd he hc
      · rw [hstrings] at hv
        refine hkeep c v hv fun hc => ?_
        rcases hclaim with hclaim | ⟨_, _, hgone⟩
        · rw [hclaim]
          exact id
        · rw [hc, ← keyOf, hgone] at hv
          cases hv

theorem linksWf_move (h : LinksWf s.stores s.runs) (hdocs : DocsWf s.stores s.runs)
    (hmove : WorkerMove s e st runs) : LinksWf st runs := by
  cases hmove with
  | env st htame =>
      exact ⟨htame.links ▸ h.ids, htame.links ▸ h.ofLink, htame.links ▸ h.ofRun⟩
  | get oid sig hoid =>
      refine ⟨h.ids, ?_, ?_⟩
      · intro l hl
        obtain ⟨r, hr, hrest⟩ := h.ofLink l hl
        exact ⟨r, List.mem_append_left _ hr, hrest⟩
      · exact forall_push h.ofRun fun w hw => by cases hw
  | @run k r st r' _ hk _ _ hstep =>
      obtain ⟨hsig, _⟩ := runStep_sig hstep
      have hid := runStep_mongoId hstep
      have hr := List.mem_of_getElem? hk
      have hlink (w : Int) : linkOf r' w = linkOf r w := by simp only [linkOf, hsig, hid]
      rcases runStep_links hstep with ⟨w, hpc, hpc', hlinks⟩ | ⟨hpc, hlinks⟩
      · have hold : ∀ l ∈ s.stores.postgres.signalLinks, ∃ b ∈ s.runs.set k r',
            linkedTo b.pc = some l.workItemId ∧ l = linkOf b l.workItemId := by
          intro l hl
          refine exists_set hk (fun hP => ?_) (h.ofLink l hl)
          rw [hpc] at hP
          cases hP.1
        refine ⟨?_, ?_, ?_⟩
        · rw [hlinks]
          refine nodup_push h.ids fun hm => ?_
          -- a link with the id of this run would be of this run, which has none yet
          obtain ⟨l, hl, hlm⟩ := List.mem_map.mp hm
          obtain ⟨b, hb, hlinked, hlb⟩ := h.ofLink l hl
          have hbr : b = r := eq_of_nodup hdocs.oids hb hr (by rw [hlb] at hlm; exact hlm)
          rw [hbr, hpc] at hlinked
          cases hlinked
        · rw [hlinks]
          exact forall_push hold ⟨r', mem_set_self hk, by rw [hpc']; rfl, (hlink w).symm⟩
        · rw [hlinks]
          refine forall_set (fun b hb v hv => List.mem_append_left _ (h.ofRun b hb v hv)) ?_
          intro v hv
          rw [hpc'] at hv
          cases hv
          rw [hlink]
          exact List.mem_append_right _ (List.mem_singleton.mpr rfl)
      · refine ⟨hlinks ▸ h.ids, ?_, ?_⟩
        · rw [hlinks]
          intro l hl
          exact exists_set hk (fun hP => by rwa [hpc, hlink]) (h.ofLink l hl)
        · rw [hlinks]
          refine forall_set h.ofRun fun w hw => ?_
          rw [hlink]
          exact h.ofRun r hr w (hpc ▸ hw)

theorem backfillWf_move (h : BackfillWf s.stores) (hdocs : DocsWf s.stores s.runs)
    (hlinks : LinksWf s.stores s.runs) (hmove : WorkerMove s e st runs) : BackfillWf st := by
  cases hmove with
  | env st htame =>
      intro d hd
      rw [htame.links]
      exact h d (htame.mongo ▸ hd)
  | get => exact h
  | @run k r st r' _ hk _ _ hstep =>
      have hr := List.mem_of_getElem? hk
      have hgrow : ∀ l ∈ s.stores.postgres.signalLinks, l ∈ st.postgres.signalLinks := by
        intro l hl
        rcases runStep_links hstep with ⟨_, _, _, hlinks⟩ | ⟨_, hlinks⟩
        · rw [hlinks]
          exact List.mem_append_left _ hl
        · rwa [hlinks]
      have hold : ∀ d ∈ s.stores.mongo, ∀ w, d.workItemId = some w →
          ∃ l ∈ st.postgres.signalLinks, l.workItemId = w ∧ l.mongoSignalId = d.id := by
        intro d hd w hw
        obtain ⟨l, hl, hrest⟩ := h d hd w hw
        exact ⟨l, hgrow l hl, hrest⟩
      intro d hd w hw
      rcases runStep_mongo hstep with ⟨_, hmongo⟩ | ⟨v, hpc, hmongo⟩ | hmongo
      · rw [hmongo] at hd
        rcases List.mem_append.mp hd with hd | hd
        · exact hold d hd w hw
        · obtain ⟨_, hdoc⟩ := hdocs.built r hr
          rw [List.mem_singleton.mp hd, hdoc] at hw
          cases hw
      · rw [hmongo, setWorkItemId] at hd
        obtain ⟨old, hold', rfl⟩ := mem_updateWhere.mp hd
        split at hw
        · next hid =>
          cases hw
          refine ⟨linkOf r w, hgrow _ (hlinks.ofRun r hr w (by rw [hpc]; rfl)), rfl, ?_⟩
          simp only [hid, if_true]
          exact (of_decide_eq_true hid).symm
        · next hid =>
          simp only [hid]
          exact hold old hold' w hw
      · exact hold d (hmongo ▸ hd) w hw

structure Wf (s : World) : Prop where
  rows : RowsWf s.stores
  docs : DocsWf s.stores s.runs
  items : ItemsWf s.stores s.runs
  keys : KeysWf s.stores s.runs
  links : LinksWf s.stores s.runs
  backfill : BackfillWf s.stores

theorem wf_init (n : Nat) : Wf (init n) := by
  have hruns (P : Run → Prop) : ∀ r ∈ (init n).runs, P r := fun r hr => absurd hr List.not_mem_nil
  have hitems (P : WorkItem → Prop) : ∀ wi ∈ origins (init n).stores, P wi :=
    fun wi hwi => absurd hwi List.not_mem_nil
  refine ⟨rowsWf_init n, ⟨List.nodup_nil, hruns _, List.nodup_nil, ?_, hruns _⟩,
    ⟨hitems _, hruns _⟩, ?_, ⟨List.nodup_nil, ?_, hruns _⟩, ?_⟩
  · exact fun d hd => absurd hd List.not_mem_nil
  · intro c v hv
    cases hv
  · exact fun l hl => absurd hl List.not_mem_nil
  · exact fun d hd => absurd hd List.not_mem_nil

theorem wf_step {cfg : Settings} {t : World} (h : Wf s) (hs : step cfg s e = some t) (he : Clean e) :
    Wf t := by
  have hmove := step_workerMove hs he
  exact ⟨rowsWf_step h.rows hs, docsWf_move h.docs hmove, itemsWf_move h.items h.keys hmove,
    keysWf_move h.keys h.items hmove, linksWf_move h.links h.docs hmove,
    backfillWf_move h.backfill h.docs h.links hmove⟩

theorem wf_trace {cfg : Settings} {n : Nat} {ok : World → Event → Prop} {es : List Event}
    (h : Trace (step cfg) ok (init n) es s) (hclean : ∀ s e, ok s e → Clean e) : Wf s :=
  h.invariant Wf (wf_init n) fun _ _ _ hwf hok hs => wf_step hwf hs (hclean _ _ hok)

end Ims.Integrity
