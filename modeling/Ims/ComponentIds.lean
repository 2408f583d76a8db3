import Ims.IngestSteps
import Ims.Rows

namespace Ims.ComponentIds

open Library.Text Library.Runs Library.Tables Library.Slots Models Mongo PostgresRepo RedisCache
  Ingestion Service WorkerSteps ServiceSteps WorkerMoves WorkerFrames Rows IngestSteps
open Workers (Stores Run Pc rawDoc)

structure CanonicalId (c : String) : Prop where
  nonempty : 1 ≤ c.length
  bounded : c.length ≤ 128
  leading : ∀ ch, c.toList.head? = some ch → isSpace ch = false
  trailing : ∀ ch, c.toList.getLast? = some ch → isSpace ch = false

def Blank (body : SignalBody) : Prop := ∀ ch ∈ body.componentId.toList, isSpace ch = true

instance : DecidablePred Blank := fun body =>
  List.decidableBAll (fun ch => isSpace ch = true) body.componentId.toList

structure StoredIds (P : String → Prop) (st : Stores) : Prop where
  mongo : ∀ doc ∈ st.mongo, P doc.componentId
  workItems : ∀ wi ∈ st.postgres.workItems, P wi.componentId
  signalLinks : ∀ link ∈ st.postgres.signalLinks, P link.componentId
  signalMetrics : ∀ m ∈ st.postgres.signalMetrics, P m.componentId
  dedupKeys : ∀ c v, st.redis.strings (dedupKey c) = some v → P c

structure Ids (P : String → Prop) (s : World) : Prop where
  queue : ∀ sig ∈ s.ingest.queue, P sig.componentId
  runs : ∀ r ∈ s.runs, P r.sig.componentId
  documents : ∀ r ∈ s.runs, r.rawDoc.componentId = r.sig.componentId
  stores : StoredIds P s.stores

inductive Input
  | post (body : SignalBody)
  | event (e : Event)

/-- A body that the schema rejects is answered with an error and changes nothing. -/
def receive (cfg : Settings) (s : World) : Input → Option World
  | .post body => match signalIn body with
    | none => some s
    | some sig => step cfg s (.offer sig)
  | .event e => if isOffer e then none else step cfg s e

def admitted (cfg : Settings) (s : World) : Input → List SignalBody
  | .post body => match signalIn body with
    | none => []
    | some sig => if (offer cfg s.ingest sig).2 then [body] else []
  | .event _ => []

def dedupKeyOf (body : SignalBody) : Option String :=
  (signalIn body).map fun sig => dedupKey sig.componentId

variable {P : String → Prop} {cfg : Settings} {s t : World} {st st' : Stores}

theorem signalIn_some {body : SignalBody} {sig : SignalIn} (h : signalIn body = some sig) :
    body.componentId.length ≤ 128 ∧ sig.componentId = strip body.componentId := by
  unfold signalIn at h
  split at h
  · rename_i c _ _ hstrip _ _
    cases h
    unfold stripComponent at hstrip
    split at hstrip
    · cases hstrip
    · rename_i hlen
      cases hstrip
      exact ⟨Nat.le_of_not_lt (not_or.mp hlen).2, rfl⟩
  · cases h

theorem blank_iff {body : SignalBody} : Blank body ↔ strip body.componentId = "" :=
  trim_eq_empty.symm

theorem canonical_strip {c : String} (hlen : c.length ≤ 128) (hblank : strip c ≠ "") :
    CanonicalId (strip c) where
  nonempty := by
    rw [Nat.one_le_iff_ne_zero, ne_eq, String.length_eq_zero_iff]
    exact hblank
  bounded := (length_trim isSpace c).trans hlen
  leading ch h := by
    rw [strip, trim, String.toList_ofList] at h
    exact trimList_head h
  trailing ch h := by
    rw [strip, trim, String.toList_ofList] at h
    exact trimList_last h

theorem not_canonical_empty : ¬ CanonicalId "" := fun h => absurd h.nonempty (by decide)

theorem storedIds_tame (h : StoredIds P st) (htame : Tame st st') : StoredIds P st' where
  mongo := htame.mongo ▸ h.mongo
  workItems := by
    have hids (st : Stores) : (counts st).map WorkItem.componentId =
        st.postgres.workItems.map WorkItem.componentId := by
      simp [counts, counted, Function.comp_def]
    have hsame : st'.postgres.workItems.map WorkItem.componentId =
        st.postgres.workItems.map WorkItem.componentId := by
      rw [← hids, htame.counts, hids]
    intro wi hwi
    have hmem := List.mem_map_of_mem (f := WorkItem.componentId) hwi
    rw [hsame] at hmem
    obtain ⟨old, hold, heq⟩ := List.mem_map.mp hmem
    exact heq ▸ h.workItems old hold
  signalLinks := htame.links ▸ h.signalLinks
  signalMetrics := htame.metrics ▸ h.signalMetrics
  dedupKeys c v hv := by
    rcases htame.keys (dedupKey c) with hkey | hkey
    · exact h.dedupKeys c v (hkey ▸ hv)
    · cases hkey.symm.trans hv

theorem dedupKeys_set (h : StoredIds P st) {c : String} (hc : P c) (value : String) :
    StoredIds P { st with redis := st.redis.set (dedupKey c) value } := by
  refine ⟨h.mongo, h.workItems, h.signalLinks, h.signalMetrics, fun d v hv => ?_⟩
  by_cases hd : d = c
  · exact hd ▸ hc
  · have hkeep : (st.redis.set (dedupKey c) value).strings (dedupKey d) = st.redis.strings (dedupKey d) :=
      Function.update_of_ne (fun he => hd (dedupKey_injective he)) _ _
    exact h.dedupKeys d v (hkeep.symm.trans hv)

theorem storedIds_runStep {now : Int} {r r' : Run} (h : StoredIds P st) (hr : P r.sig.componentId)
    (hdoc : r.rawDoc.componentId = r.sig.componentId) (hstep : RunStep now st r st' r') :
    StoredIds P st' := by
  cases hstep with
  | insert => exact { h with mongo := forall_push h.mongo (hdoc ▸ hr) }
  | win | publishOver | publishAnyway => exact dedupKeys_set h hr _
  | create => exact { h with workItems := forall_push h.workItems hr }
  | increment => exact { h with workItems := forall_updateWhere h.workItems fun _ hrow => hrow }
  | link => exact { h with signalLinks := forall_push h.signalLinks hr }
  | backfill => exact { h with mongo := forall_updateWhere h.mongo fun _ hrow => hrow }
  | meter =>
      refine { h with signalMetrics := ?_ }
      simp only [upsertMetricBucket]
      split
      · exact forall_updateWhere h.signalMetrics fun _ hrow => hrow
      · exact forall_push h.signalMetrics hr
  | stay | lose | publishGone | push | dispatch | findGone | findItem | skipBackfill =>
      exact ⟨h.mongo, h.workItems, h.signalLinks, h.signalMetrics, h.dedupKeys⟩

theorem documents_step {e : Event} (h : ∀ r ∈ s.runs, r.rawDoc.componentId = r.sig.componentId)
    (hs : step cfg s e = some t) : ∀ r ∈ t.runs, r.rawDoc.componentId = r.sig.componentId := by
  have hmove := step_move hs
  generalize t.stores = st, t.runs = runs, t.requests = requests at hmove
  cases hmove with
  | get => exact forall_push h rfl
  | run o hk _ _ =>
      obtain ⟨hsig, hdoc⟩ := attempt_sig _ o s.clock s.stores
      refine forall_set h ?_
      rw [hsig, hdoc]
      exact h _ (List.mem_of_getElem? hk)
  | @finish k r _ hk _ _ => exact forall_set h (h r (List.mem_of_getElem? hk))
  | @cancelRun k r hk _ => exact forall_set h (h r (List.mem_of_getElem? hk))
  | quiet | request | abortRequest | call | expire | burnWorkItemId | burnRcaId => exact h

theorem ids_step {e : Event} (h : Ids P s) (hs : step cfg s e = some t)
    (hoffer : ∀ sig ∈ acceptedBy cfg s e, P sig.componentId) : Ids P t := by
  have hsigs : ∀ sig ∈ signals t, P sig.componentId := by
    refine forall_signals_step (fun sig hsig => ?_) hoffer hs
    rcases List.mem_append.mp hsig with hsig | hsig
    · obtain ⟨r, hr, rfl⟩ := List.mem_map.mp hsig
      exact h.runs r hr
    · exact h.queue sig hsig
  constructor
  · exact fun sig hsig => hsigs sig (List.mem_append_right _ hsig)
  · exact fun r hr => hsigs r.sig (List.mem_append_left _ (List.mem_map_of_mem hr))
  · exact documents_step h.documents hs
  · rcases step_stores hs with htame | ⟨_, r, _, _, hk, hstep⟩
    · exact storedIds_tame h.stores htame
    · have hr := List.mem_of_getElem? hk
      exact storedIds_runStep h.stores (h.runs r hr) (h.documents r hr) hstep

theorem ids_init (n : Nat) : Ids P (init n) := by
  constructor
  · exact fun sig hsig => absurd hsig List.not_mem_nil
  · exact fun r hr => absurd hr List.not_mem_nil
  · exact fun r hr => absurd hr List.not_mem_nil
  · constructor
    · exact fun doc hdoc => absurd hdoc List.not_mem_nil
    · exact fun wi hwi => absurd hwi List.not_mem_nil
    · exact fun link hlink => absurd hlink List.not_mem_nil
    · exact fun m hm => absurd hm List.not_mem_nil
    · intro c v hv
      cases hv

/-- An input is an event of the service, or leaves it as it is. -/
theorem receive_cases {i : Input} (h : receive cfg s i = some t) :
    t = s ∧ admitted cfg s i = [] ∨
      (∃ e, isOffer e = false ∧ step cfg s e = some t ∧ admitted cfg s i = []) ∨
      ∃ body sig, i = .post body ∧ signalIn body = some sig ∧ step cfg s (.offer sig) = some t ∧
        admitted cfg s i = if (offer cfg s.ingest sig).2 then [body] else [] := by
  cases i with
  | post body =>
      cases hsig : signalIn body with
      | none =>
          simp only [receive, hsig, Option.some.injEq] at h
          exact .inl ⟨h.symm, by simp only [admitted, hsig]⟩
      | some sig =>
          simp only [receive, hsig] at h
          exact .inr (.inr ⟨body, sig, rfl, hsig, h, by simp only [admitted, hsig]⟩)
  | event e =>
      simp only [receive] at h
      split at h
      · cases h
      · rename_i hoffer
        exact .inr (.inl ⟨e, Bool.not_eq_true _ ▸ hoffer, h, rfl⟩)

theorem mem_admitted {i : Input} {body : SignalBody} (h : body ∈ admitted cfg s i) :
    ∃ sig, i = .post body ∧ signalIn body = some sig ∧ (offer cfg s.ingest sig).2 = true := by
  cases i with
  | post other =>
      simp only [admitted] at h
      split at h
      · cases h
      · rename_i sig hsig
        split at h
        · rename_i hok
          obtain rfl := List.mem_singleton.mp h
          exact ⟨sig, rfl, hsig, hok⟩
        · cases h
  | event => cases h

/-- Every id in the system is what the schema made of an admitted one. -/
theorem ids_receive {i : Input} (h : Ids P s) (hs : receive cfg s i = some t)
    (hpost : ∀ body ∈ admitted cfg s i, P (strip body.componentId)) : Ids P t := by
  rcases receive_cases hs with ⟨rfl, _⟩ | ⟨e, hoffer, hstep, _⟩ | ⟨body, sig, rfl, hsig, hstep, hadm⟩
  · exact h
  · refine ids_step h hstep ?_
    rw [acceptedBy_nil hoffer]
    exact fun sig hsig => absurd hsig List.not_mem_nil
  · refine ids_step h hstep ?_
    intro other hother
    simp only [acceptedBy] at hother
    split at hother
    · rename_i hok
      rw [if_pos hok] at hadm
      obtain rfl := List.mem_singleton.mp hother
      rw [(signalIn_some hsig).2]
      exact hpost body (hadm ▸ List.mem_singleton.mpr rfl)
    · cases hother

def admittedBy (cfg : Settings) (n : Nat) (is : List Input) : List SignalBody :=
  gather (receive cfg) (admitted cfg) (init n) is

/-- The ids are canonical in every state of the run, and two admitted signals
share a dedup key exactly when they share an id that is more than whitespace. -/
structure Canonical (cfg : Settings) (n : Nat) (is : List Input) : Prop where
  ids : ∀ is₁ is₂ t, is = is₁ ++ is₂ → Trace (receive cfg) (fun _ _ => True) (init n) is₁ t →
    Ids CanonicalId t
  keys : ∀ a ∈ admittedBy cfg n is, ∀ b ∈ admittedBy cfg n is,
    dedupKeyOf a = dedupKeyOf b ↔
      strip a.componentId = strip b.componentId ∧ strip a.componentId ≠ ""

theorem admitted_accepted {n : Nat} {is : List Input}
    (h : Trace (receive cfg) (fun _ _ => True) (init n) is s) :
    ∀ body ∈ admittedBy cfg n is, ∃ sig, signalIn body = some sig := by
  refine h.invariant_past (fun is _ => ∀ body ∈ admittedBy cfg n is, ∃ sig, signalIn body = some sig)
    (fun body hbody => absurd hbody List.not_mem_nil) ?_
  intro is s i t htrace hall _ hs body hbody
  rw [admittedBy, htrace.gather_next hs] at hbody
  rcases List.mem_append.mp hbody with hbody | hbody
  · exact hall body hbody
  · obtain ⟨sig, _, hsig, _⟩ := mem_admitted hbody
    exact ⟨sig, hsig⟩

theorem ids_trace {n : Nat} {is : List Input}
    (h : Trace (receive cfg) (fun _ _ => True) (init n) is s)
    (hpost : ∀ body ∈ admittedBy cfg n is, ¬ Blank body) : Ids CanonicalId s := by
  refine h.invariant_past (fun is s => (∀ body ∈ admittedBy cfg n is, ¬ Blank body) →
    Ids CanonicalId s) (fun _ => ids_init n) ?_ hpost
  intro is s i t htrace hids _ hs hpost
  rw [admittedBy, htrace.gather_next hs] at hpost
  refine ids_receive (hids fun body hbody => hpost body (List.mem_append_left _ hbody)) hs ?_
  intro body hbody
  obtain ⟨sig, _, hsig, _⟩ := mem_admitted hbody
  refine canonical_strip (signalIn_some hsig).1 fun hblank => ?_
  exact hpost body (List.mem_append_right _ hbody) (blank_iff.mpr hblank)

theorem dedupKeyOf_eq_iff {a b : SignalBody} (ha : ∃ sig, signalIn a = some sig)
    (hb : ∃ sig, signalIn b = some sig) :
    dedupKeyOf a = dedupKeyOf b ↔ strip a.componentId = strip b.componentId := by
  obtain ⟨x, hx⟩ := ha
  obtain ⟨y, hy⟩ := hb
  rw [← (signalIn_some hx).2, ← (signalIn_some hy).2]
  simp only [dedupKeyOf, hx, hy, Option.map_some, Option.some.injEq]
  exact ⟨dedupKey_injective, congrArg dedupKey⟩

/-- An admitted id of whitespace stands in the queue as the empty id. -/
theorem blank_id_held {n : Nat} {is : List Input}
    (h : Trace (receive cfg) (fun _ _ => True) (init n) is s) :
    ∀ body ∈ admittedBy cfg n is, Blank body → Once (receive cfg) (init n) is fun t =>
      ∃ sig ∈ t.ingest.queue, sig.componentId = "" := by
  refine h.invariant_past (fun is _ => ∀ body ∈ admittedBy cfg n is, Blank body →
    Once (receive cfg) (init n) is fun t => ∃ sig ∈ t.ingest.queue, sig.componentId = "")
    (fun body hbody => absurd hbody List.not_mem_nil) ?_
  intro is s i t htrace hall hok hs body hbody hblank
  rw [admittedBy, htrace.gather_next hs] at hbody
  rcases List.mem_append.mp hbody with hbody | hbody
  · exact (hall body hbody hblank).later
  · refine .now (htrace.next hok hs) ?_
    obtain ⟨sig, rfl, hsig, hroom⟩ := mem_admitted hbody
    simp only [receive, hsig, step, Option.some.injEq] at hs
    have hqueue := (offer_queue cfg s.ingest sig).1
    rw [hroom, if_pos rfl] at hqueue
    refine ⟨sig, ?_, (signalIn_some hsig).2.trans (blank_iff.mp hblank)⟩
    rw [← hs, hqueue]
    exact List.mem_append_right _ (List.mem_singleton.mpr rfl)

/-- The validator strips after the length is checked, so that an id of
whitespace is admitted and becomes the empty id; no other id goes wrong. -/
theorem component_ids_canonical_iff {n : Nat} {is : List Input}
    (h : Trace (receive cfg) (fun _ _ => True) (init n) is s) :
    Canonical cfg n is ↔ ∀ body ∈ admittedBy cfg n is, ¬ Blank body := by
  have haccepted := admitted_accepted h
  constructor
  · intro hcanonical body hbody hblank
    exact ((hcanonical.keys body hbody body hbody).mp rfl).2 (blank_iff.mp hblank)
  · intro hpost
    constructor
    · rintro is₁ is₂ t rfl ht
      refine ids_trace ht fun body hbody => hpost body ?_
      rw [admittedBy, ht.gather_append]
      exact List.mem_append_left _ hbody
    · intro a ha b hb
      rw [dedupKeyOf_eq_iff (haccepted a ha) (haccepted b hb)]
      exact ⟨fun heq => ⟨heq, fun hblank => hpost a ha (blank_iff.mpr hblank)⟩, And.left⟩

def postId (componentId : String) : Input := .post ⟨componentId, "CACHE", "ERROR", .utc 0, none⟩

def padded : List Input :=
  [postId " db", postId "db\t", postId "", .event (.get "a")] ++ (runOn 0 9).map .event

theorem component_ids_canonical_iff_padded :
    ∃ s, Trace (receive {}) (fun _ _ => True) (init 1) padded s ∧
      s.stores.postgres.workItems.map WorkItem.componentId = ["db"] ∧ Canonical {} 1 padded := by
  obtain ⟨s, hs, hp⟩ := trace_of_replay (receive {}) (fun _ _ => True) (init 1) padded
    (fun s => decide (s.stores.postgres.workItems.map WorkItem.componentId = ["db"]))
    (by decide +kernel)
  exact ⟨s, hs, of_decide_eq_true hp, (component_ids_canonical_iff hs).mpr (by decide +kernel)⟩

/-- A blank of length one passes the schema, and a tab opens no other window. -/
def blankPosts : List Input :=
  [postId " ", postId "\t", .event (.get "a")] ++ (runOn 0 3).map .event

theorem blank_ids_merged :
    ∃ s, Trace (receive {}) (fun _ _ => True) (init 1) blankPosts s ∧
      s.stores.postgres.workItems.map WorkItem.componentId = [""] ∧ ¬ Canonical {} 1 blankPosts := by
  obtain ⟨s, hs, hp⟩ := trace_of_replay (receive {}) (fun _ _ => True) (init 1) blankPosts
    (fun s => decide (s.stores.postgres.workItems.map WorkItem.componentId = [""]))
    (by decide +kernel)
  have hitems := of_decide_eq_true hp
  refine ⟨s, hs, hitems, fun hcanonical => ?_⟩
  have hids := hcanonical.ids blankPosts [] s (List.append_nil _).symm hs
  obtain ⟨wi, hwi, hempty⟩ := List.mem_map.mp (hitems ▸ List.mem_singleton.mpr rfl :
    "" ∈ s.stores.postgres.workItems.map WorkItem.componentId)
  exact not_canonical_empty (hempty ▸ hids.stores.workItems wi hwi)

end Ims.ComponentIds
