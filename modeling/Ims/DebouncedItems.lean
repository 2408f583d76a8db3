import Ims.SerialDebouncer

namespace Ims.DebouncedItems

open Library.Text Library.Runs Library.Tables Library.Slots Library.Grouping Models Mongo RedisCache
  Ingestion Service WorkerSteps ServiceSteps WorkerMoves WorkerFrames Rows Integrity CrossStore
  SignalCounts Delivery SerialDebouncer
open Workers (Stores Run Pc Outcome)
open QueueConservation (running)

def itemsOf (c : String) (s : World) : List WorkItem :=
  s.stores.postgres.workItems.filter fun wi => decide (wi.componentId = c)

def linkedTo (s : World) (wi : WorkItem) : List String :=
  (s.stores.postgres.signalLinks.filter fun l => decide (l.workItemId = wi.id)).map
    SignalLink.mongoSignalId

def documentsOf (s : World) (wi : WorkItem) : List String :=
  (s.stores.mongo.filter fun d => decide (d.workItemId = some wi.id)).map Document.id

structure InWindow (s : World) (window : List Tag) (wi : WorkItem) : Prop where
  opened : ∃ first, window.head? = some first ∧ wi.componentType = first.2.componentType ∧
    wi.severity = first.2.severity ∧ wi.startTime = first.2.timestamp.instant
  count : wi.signalCount = window.length
  links : (linkedTo s wi).Perm (window.map Prod.fst)
  documents : (documentsOf s wi).Perm (window.map Prod.fst)

structure Debounced (c : String) (s : World) (history : List (Option Tag)) : Prop where
  signals : history.reduceOption = (runsOf c s.runs).map tag
  windows : List.Forall₂ (InWindow s) (Library.Grouping.windows history).groups (itemsOf c s)
  bounded : (itemsOf c s).length ≤ 1 + history.countP Option.isNone
  key : s.stores.redis.strings (dedupKey c) =
    if (Library.Grouping.windows history).current = [] then none
    else (itemsOf c s).getLast?.map fun wi => str wi.id

variable {cfg : Settings} {s : World} {c : String} {books : List Book} {n : Nat} {es : List Event}

theorem placed_of_running (h : ∀ r ∈ s.runs, Going r) {r : Run} (hr : r ∈ s.runs)
    (hended : r.status ≠ .running) : ∃ w, r.pc = .finish w := by
  rcases h r hr with hrun | ⟨_, hpc⟩
  · exact absurd hrun hended
  · exact hpc

/-- With no run of c in flight, all of them are placed. -/
theorem settled_of_quiet {w : Windows Tag} (h : Stage c s.stores s.runs w)
    (hquiet : ∀ r ∈ s.runs, r.sig.componentId = c → r.status ≠ .running) :
    ∃ books, Ledger c s.stores (runsOf c s.runs) books ∧ w.groups = books.map Prod.fst ∧
      KeyAgrees c s.stores w books := by
  have hbusy {old : List Run} {r : Run} (hb : Busy c s.runs old r) : False := by
    have hr : r ∈ runsOf c s.runs := hb.runs ▸ List.mem_append_right _ List.mem_cons_self
    exact hquiet r (List.mem_filter.mp hr).1 hb.isOf hb.running
  cases h with
  | settled books hledger hgroups hkey => exact ⟨books, hledger, hgroups, hkey⟩
  | undecided _ _ _ hb | creating _ _ _ _ hb | publishing _ _ _ _ _ hb => exact (hbusy hb).elim

structure Quiet (c : String) (s : World) (books : List Book) : Prop where
  delivery : DeliveryWf s
  counts : CountsWf s.stores s.runs
  ledger : Ledger c s.stores (runsOf c s.runs) books
  ended : ∀ r ∈ s.runs, r.sig.componentId = c → r.status ≠ .running

theorem Quiet.ids (h : Quiet c s books) : (books.map fun b => b.2.id).Nodup := by
  have hids : ((originsOf c s.stores).map WorkItem.id).Nodup := by
    refine nodup_where ?_ _
    rw [ids_origins]
    exact h.delivery.wf.rows.ids
  rwa [h.ledger.recorded.items, List.map_map] at hids

theorem Quiet.tags (h : Quiet c s books) : ((books.map Prod.fst).flatten.map Prod.fst).Nodup := by
  rw [← h.ledger.order, List.map_map]
  exact nodup_where h.delivery.wf.docs.oids _

/-- A signal is in the window of the work item that its run is placed on. -/
theorem Quiet.mem_iff (h : Quiet c s books) {b : Book} (hb : b ∈ books) (m : String) :
    m ∈ b.1.map Prod.fst ↔
      ∃ r ∈ s.runs, r.sig.componentId = c ∧ r.pc = .finish b.2.id ∧ r.mongoId = m := by
  constructor
  · intro hm
    obtain ⟨a, ha, rfl⟩ := List.mem_map.mp hm
    have hflat : a ∈ (books.map Prod.fst).flatten :=
      List.mem_flatten.mpr ⟨b.1, List.mem_map_of_mem hb, ha⟩
    rw [← h.ledger.order] at hflat
    obtain ⟨r, hr, rfl⟩ := List.mem_map.mp hflat
    obtain ⟨hrun, hc⟩ := List.mem_filter.mp hr
    have hc := of_decide_eq_true hc
    obtain ⟨b', hb', hplaced, hin⟩ := h.ledger.filed r hr
    obtain ⟨w, hpc⟩ := placed_of_running h.delivery.going hrun (h.ended r hrun hc)
    have hsame : b' = b := by
      by_contra hne
      have hpair := (List.nodup_flatten.mp (List.Nodup.of_map _ h.tags)).2
      rw [List.pairwise_map] at hpair
      have : Std.Symm fun a b : Book => List.Disjoint a.1 b.1 := ⟨fun _ _ hd => hd.symm⟩
      exact hpair.forall hb' hb hne hin ha
    rw [hpc, hsame] at hplaced
    exact ⟨r, hrun, hc, by rw [hpc, Option.some.inj hplaced], rfl⟩
  · rintro ⟨r, hr, hc, hpc, rfl⟩
    obtain ⟨b', hb', hplaced, hin⟩ :=
      h.ledger.filed r (List.mem_filter.mpr ⟨hr, decide_eq_true hc⟩)
    rw [hpc] at hplaced
    rw [eq_of_nodup h.ids hb hb' (Option.some.inj hplaced)]
    exact List.mem_map_of_mem hin

/-- A run that knows the work item of a window is a run of c, and has returned. -/
theorem Quiet.finished (h : Quiet c s books) {b : Book} (hb : b ∈ books) {r : Run} (hr : r ∈ s.runs)
    (hitem : workItemOf r.pc = some b.2.id) :
    r.sig.componentId = c ∧ r.pc = .finish b.2.id := by
  obtain ⟨wi, hwi, hid, hcomponent⟩ := h.delivery.wf.items.ofRun r hr _ hitem
  have hb' : b.2 ∈ originsOf c s.stores := by
    rw [h.ledger.recorded.items]
    exact List.mem_map_of_mem hb
  obtain ⟨hbo, hbc⟩ := List.mem_filter.mp hb'
  have hids : ((origins s.stores).map WorkItem.id).Nodup := by
    rw [ids_origins]
    exact h.delivery.wf.rows.ids
  have hwb : wi = b.2 := eq_of_nodup hids hwi hbo hid
  have hc : r.sig.componentId = c := by
    rw [← hcomponent, hwb]
    exact of_decide_eq_true hbc
  obtain ⟨w, hpc⟩ := placed_of_running h.delivery.going hr (h.ended r hr hc)
  rw [hpc] at hitem
  exact ⟨hc, by rw [hpc, Option.some.inj hitem]⟩

theorem Quiet.links (h : Quiet c s books) {b : Book} (hb : b ∈ books) {wi : WorkItem}
    (hid : wi.id = b.2.id) : (linkedTo s wi).Perm (b.1.map Prod.fst) := by
  have hwf := h.delivery.wf
  have hnodup : (b.1.map Prod.fst).Nodup := by
    have htags := h.tags
    rw [List.map_flatten] at htags
    exact (List.nodup_flatten.mp htags).1 _
      (List.mem_map_of_mem (List.mem_map_of_mem hb))
  refine (List.perm_ext_iff_of_nodup (nodup_where hwf.links.ids _) hnodup).mpr fun m => ?_
  rw [h.mem_iff hb]
  constructor
  · intro hm
    obtain ⟨l, hl, rfl⟩ := List.mem_map.mp hm
    obtain ⟨hl, hw⟩ := List.mem_filter.mp hl
    obtain ⟨r, hr, hlinked, hof⟩ := hwf.links.ofLink l hl
    rw [of_decide_eq_true hw, hid] at hlinked
    obtain ⟨hc, hpc⟩ := h.finished hb hr (stored_of_linked hlinked).2
    exact ⟨r, hr, hc, hpc, by rw [hof]; rfl⟩
  · rintro ⟨r, hr, _, hpc, rfl⟩
    have hl := hwf.links.ofRun r hr b.2.id (by rw [hpc]; rfl)
    exact List.mem_map.mpr ⟨linkOf r b.2.id, List.mem_filter.mpr ⟨hl, decide_eq_true hid.symm⟩, rfl⟩

theorem Quiet.documents (h : Quiet c s books) {b : Book} (hb : b ∈ books) {wi : WorkItem}
    (hid : wi.id = b.2.id) : (documentsOf s wi).Perm (b.1.map Prod.fst) := by
  have hwf := h.delivery.wf
  refine List.Perm.trans ((List.perm_ext_iff_of_nodup ?_ ?_).mpr fun m => ?_) (h.links hb hid)
  · exact nodup_where hwf.docs.ids _
  · exact nodup_where hwf.links.ids _
  · constructor
    · intro hm
      obtain ⟨d, hd, rfl⟩ := List.mem_map.mp hm
      obtain ⟨hd, hw⟩ := List.mem_filter.mp hd
      obtain ⟨l, hl, hlw, hlm⟩ := hwf.backfill d hd wi.id (of_decide_eq_true hw)
      exact List.mem_map.mpr ⟨l, List.mem_filter.mpr ⟨hl, decide_eq_true hlw⟩, hlm⟩
    · intro hm
      rw [(h.links hb hid).mem_iff, h.mem_iff hb] at hm
      obtain ⟨r, hr, _, hpc, rfl⟩ := hm
      obtain ⟨d, hd, hdm, hdw⟩ := h.delivery.filled r hr b.2.id (by rw [hpc]; rfl)
      exact List.mem_map.mpr
        ⟨d, List.mem_filter.mpr ⟨hd, decide_eq_true (by rw [hdw, hid])⟩, hdm⟩

theorem Quiet.inWindow (h : Quiet c s books) {b : Book} (hb : b ∈ books) {wi : WorkItem}
    (hwi : wi ∈ s.stores.postgres.workItems) (horigin : b.2 = origin wi) : InWindow s b.1 wi := by
  have hid : wi.id = b.2.id := by
    rw [horigin]
    rfl
  have hlinks := h.links hb hid
  refine ⟨?_, ?_, hlinks, h.documents hb hid⟩
  · obtain ⟨first, now, hfirst, hcopy⟩ := h.ledger.recorded.copied b hb
    rw [horigin] at hcopy
    refine ⟨first, hfirst, ?_, ?_, ?_⟩
    · exact congrArg WorkItem.componentType hcopy
    · exact congrArg WorkItem.severity hcopy
    · exact congrArg WorkItem.startTime hcopy
  · have hcount : wi.signalCount = linksOf s.stores wi.id + s.runs.countP (owes wi.id) :=
      h.counts (counted wi) (List.mem_map_of_mem hwi)
    have hzero : s.runs.countP (owes wi.id) = 0 := by
      refine List.countP_eq_zero.mpr fun r hr howes => ?_
      have howing := of_decide_eq_true howes
      obtain ⟨_, hpc⟩ := h.finished hb hr (hid ▸ workItemOf_of_owing howing)
      rw [hpc] at howing
      cases howing
    have hlength : linksOf s.stores wi.id = b.1.length := by
      have := hlinks.length_eq
      rw [linkedTo, List.length_map, List.length_map, ← List.countP_eq_length_filter] at this
      exact this
    rw [hcount, hzero, hlength]
    simp

theorem quiet_of_trace
    (h : Trace (step cfg) (fun s e => Smooth e ∧ serial s e = true) (init n) es s)
    (hended : ∀ r ∈ s.runs, r.sig.componentId = c → r.status ≠ .running) :
    ∃ books, Quiet c s books ∧ (windows (history cfg n c es)).groups = books.map Prod.fst ∧
      KeyAgrees c s.stores (windows (history cfg n c es)) books := by
  have hread : Trace (step cfg) (fun s e => Smooth e ∧ readsPlaceholder s e = false) (init n) es s := by
    refine (h.with_invariant (fun s => Wf s ∧ ∃ W, ∀ c, Stage c s.stores s.runs (W c))
      ⟨wf_init n, fun c => windows (history cfg n c []), stage_trace .start⟩ ?_).mono_step ?_
    · rintro s e t ⟨hwf, W, hW⟩ ⟨he, hserial⟩ hs
      exact ⟨wf_step hwf hs (clean_of_smooth he), _, stage_step hW hwf he hserial hs⟩
    · rintro s e t ⟨⟨_, W, hW⟩, he, _⟩ hs
      exact ⟨he, reads_step hW hs⟩
  obtain ⟨books, hledger, hgroups, hkey⟩ := settled_of_quiet (stage_trace h c) hended
  exact ⟨books, ⟨deliveryWf_trace hread, countsWf_trace (h.mono fun _ _ he => clean_of_smooth he.1),
    hledger, hended⟩, hgroups, hkey⟩

/-- One worker takes up no signal while it is processing another. -/
theorem serial_of_one_worker (h : Trace (step cfg) (fun _ e => Smooth e) (init 1) es s) :
    Trace (step cfg) (fun s e => Smooth e ∧ serial s e = true) (init 1) es s := by
  refine (h.with_invariant (fun s =>
    s.ingest.unfinished = s.ingest.queue.length + s.runs.countP running ∧
      s.idle + s.runs.countP running ≤ 1) ⟨rfl, Nat.le_refl _⟩ ?_).mono_step ?_
  · rintro s e t ⟨hunfinished, hone⟩ _ hs
    have := Draining.staff_step hunfinished hs
    exact ⟨Draining.unfinished_step hunfinished hs, by omega⟩
  · rintro s e t ⟨⟨_, hone⟩, he⟩ hs
    refine ⟨he, ?_⟩
    cases e with
    | get oid =>
        cases step_taken hs with
        | get oid sig queue hqueue hidle =>
            have hnone : s.runs.countP running = 0 := by omega
            simp only [serial, hqueue, List.head?_cons, Option.all_some, List.all_eq_true]
            intro r hr
            simp [List.countP_eq_zero.mp hnone r hr]
    | _ => rfl

/-- The debouncer makes the work items of a component out of the windows of its
signals: one work item for each window, and one window for each signal. -/
theorem debouncer_refined
    (h : Trace (step cfg) (fun s e => Smooth e ∧ serial s e = true) (init n) es s)
    (hended : ∀ r ∈ s.runs, r.sig.componentId = c → r.status ≠ .running) :
    Debounced c s (history cfg n c es) := by
  obtain ⟨books, hquiet, hgroups, hkey⟩ := quiet_of_trace h hended
  have hitems : (itemsOf c s).map origin = books.map Prod.snd := by
    rw [← hquiet.ledger.recorded.items, originsOf, origins, List.filter_map]
    rfl
  have hbooks : List.Forall₂ (fun b wi => b.2 = origin wi) books (itemsOf c s) := by
    rw [← List.forall₂_map_left_iff (R := fun b wi => b = origin wi),
      ← List.forall₂_map_right_iff (R := Eq), List.forall₂_eq_eq_eq]
    exact hitems.symm
  have hwindows : List.Forall₂ (InWindow s) (books.map Prod.fst) (itemsOf c s) := by
    obtain ⟨hlength, hzip⟩ := List.forall₂_iff_zip.mp hbooks
    refine List.forall₂_map_left_iff.mpr (List.forall₂_iff_zip.mpr ⟨hlength, fun hin => ?_⟩)
    obtain ⟨hb, hwi⟩ := List.of_mem_zip hin
    exact hquiet.inWindow hb (List.mem_filter.mp hwi).1 (hzip hin)
  refine ⟨?_, hgroups ▸ hwindows, ?_, ?_⟩
  · rw [← flatten_windows, hgroups, ← hquiet.ledger.order]
  · rw [← hwindows.length_eq, ← hgroups]
    exact length_groups_le _
  · rcases hkey with ⟨hshut, hnone⟩ | ⟨hopen, b, hlast, hsome⟩
    · rw [if_pos hshut, hnone]
    · have hmap : (itemsOf c s).getLast?.map origin = some b.2 := by
        rw [← List.getLast?_map, hitems, List.getLast?_map, hlast]
        rfl
      obtain ⟨wi, hwi, horigin⟩ := Option.map_eq_some_iff.mp hmap
      rw [if_neg hopen, hsome, hwi, ← horigin]
      rfl

def twoWindows : List Event :=
  [.offer (errorSignal "db"), .offer (errorSignal "api"), .offer (errorSignal "db"),
    .offer (errorSignal "db"), .get "a", .get "b"] ++ runOn 0 4 ++ runOn 1 5 ++ runOn 0 6 ++
    [.get "c"] ++ runOn 2 8 ++ [.expire (dedupKey "db"), .get "d"] ++ runOn 3 10

theorem debouncer_refined_two_windows : ∃ s, (itemsOf "db" s).map WorkItem.signalCount = [2, 1] ∧
    Debounced "db" s (history {} 2 "db" twoWindows) := by
  obtain ⟨s, hs, hp⟩ := trace_of_replay (step {}) (fun s e => Smooth e ∧ serial s e = true) (init 2)
    twoWindows (fun s => decide ((itemsOf "db" s).map WorkItem.signalCount = [2, 1] ∧
      ∀ r ∈ s.runs, r.sig.componentId = "db" → r.status ≠ .running)) (by decide +kernel)
  obtain ⟨hcounts, hended⟩ := of_decide_eq_true hp
  exact ⟨s, hcounts, debouncer_refined hs hended⟩

end Ims.DebouncedItems
