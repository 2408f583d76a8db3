import Ims.Library.Grouping
import Ims.DedupOwners
import Ims.Delivery
import Ims.SignalCounts
import Ims.Draining

namespace Ims.SerialDebouncer

open Library.Text Library.Runs Library.Slots Library.Grouping Models RedisCache Ingestion Service
  WorkerSteps ServiceSteps WorkerMoves WorkerFrames Rows Integrity DedupWindows Delivery
open Workers (Stores Run Pc Outcome placeholder isPlaceholder)
open QueueConservation (running)

abbrev Tag := String × SignalIn

def tag (r : Run) : Tag := (r.mongoId, r.sig)

/-- A signal falls into its window where its run wins the claim, or reads the key. -/
def joins (c : String) (s : World) : Event → List (Option Tag)
  | .run k .ok => match s.runs[k]? with
    | none => []
    | some r =>
        if r.sig.componentId = c ∧
            (r.pc = .claim ∧ keyed c s.stores = false ∨ r.pc = .getOpenWorkItem) then
          [some (tag r)]
        else []
  | _ => []

def ends (cfg : Settings) (c : String) (s : World) (e : Event) : List (Option Tag) :=
  if (step cfg s e).any fun t => keyed c s.stores && !keyed c t.stores then [none] else []

def marks (cfg : Settings) (c : String) (s : World) (e : Event) : List (Option Tag) :=
  joins c s e ++ ends cfg c s e

/-- The signals of c in the order of their decisions, with the ends of the windows. -/
def history (cfg : Settings) (n : Nat) (c : String) (es : List Event) : List (Option Tag) :=
  gather (step cfg) (marks cfg c) (init n) es

/-- No worker takes up a signal while a run for its component is in flight. -/
def serial (s : World) : Event → Bool
  | .get _ => s.ingest.queue.head?.all fun sig =>
      s.runs.all fun r => !(decide (r.sig.componentId = sig.componentId) && running r)
  | _ => true

def isOf (c : String) (r : Run) : Bool := decide (r.sig.componentId = c)

def runsOf (c : String) (runs : List Run) : List Run := runs.filter (isOf c)

def originsOf (c : String) (st : Stores) : List WorkItem :=
  (origins st).filter fun wi => decide (wi.componentId = c)

def placed : Pc → Option Int
  | .pushLiveFeed w | .dispatch w | .increment w | .addLink w | .backfill w | .upsertMetric w
  | .finish w => some w
  | .insertSignal | .claim | .create _ | .publish _ _ | .getOpenWorkItem => none

abbrev Book := List Tag × WorkItem

def Copied (b : Book) : Prop := ∃ a now, b.1.head? = some a ∧ b.2 = newWorkItem a.2 b.2.id now

structure Recorded (c : String) (st : Stores) (books : List Book) : Prop where
  items : originsOf c st = books.map Prod.snd
  copied : ∀ b ∈ books, Copied b

def Filed (books : List Book) (r : Run) : Prop :=
  ∃ b ∈ books, placed r.pc = some b.2.id ∧ tag r ∈ b.1

structure Ledger (c : String) (st : Stores) (old : List Run) (books : List Book) : Prop where
  recorded : Recorded c st books
  filed : ∀ r ∈ old, Filed books r
  order : old.map tag = (books.map Prod.fst).flatten

def KeyAgrees (c : String) (st : Stores) (w : Windows Tag) (books : List Book) : Prop :=
  w.current = [] ∧ st.redis.strings (dedupKey c) = none ∨
    w.current ≠ [] ∧ ∃ b, books.getLast? = some b ∧
      st.redis.strings (dedupKey c) = some (str b.2.id)

def KeyHeld (c : String) (st : Stores) (w : Windows Tag) (r : Run) (won : Bool) : Prop :=
  won = true ∧ w.current = [] ∧ st.redis.strings (dedupKey c) = none ∨
    w.current = [tag r] ∧
      st.redis.strings (dedupKey c) = if won then some (placeholder r.mongoId) else none

structure Busy (c : String) (runs : List Run) (old : List Run) (r : Run) : Prop where
  runs : runsOf c runs = old ++ [r]
  running : r.status = .running
  ended : ∀ b ∈ old, b.status ≠ .running

/-- Where the debouncing of c stands when the windows of its history are w. -/
inductive Stage (c : String) (st : Stores) (runs : List Run) (w : Windows Tag) : Prop
  | settled (books) (hledger : Ledger c st (runsOf c runs) books)
      (hgroups : w.groups = books.map Prod.fst) (hkey : KeyAgrees c st w books)
  | undecided (old r books) (hbusy : Busy c runs old r)
      (hpc : r.pc = .insertSignal ∨ r.pc = .claim ∨ r.pc = .getOpenWorkItem)
      (hledger : Ledger c st old books) (hgroups : w.groups = books.map Prod.fst)
      (hkey : KeyAgrees c st w books)
  | creating (old r books won) (hbusy : Busy c runs old r) (hpc : r.pc = .create won)
      (hledger : Ledger c st old books) (hgroups : w.groups = books.map Prod.fst ++ [[tag r]])
      (hkey : KeyHeld c st w r won)
  | publishing (old r books won wi) (hbusy : Busy c runs old r) (hpc : r.pc = .publish won wi.id)
      (hrecorded : Recorded c st (books ++ [([tag r], wi)])) (hfiled : ∀ b ∈ old, Filed books b)
      (horder : old.map tag = (books.map Prod.fst).flatten)
      (hgroups : w.groups = books.map Prod.fst ++ [[tag r]]) (hkey : KeyHeld c st w r won)

variable {cfg : Settings} {s t : World} {e : Event} {c : String} {st st' : Stores} {runs : List Run}
  {w : Windows Tag} {books : List Book} {old : List Run} {r : Run}

theorem Busy.not_mem (h : Busy c runs old r) : r ∉ old := fun hr => h.ended r hr h.running

theorem Busy.isOf (h : Busy c runs old r) : r.sig.componentId = c := by
  have hr : r ∈ runsOf c runs := h.runs ▸ List.mem_append_right _ List.mem_cons_self
  exact of_decide_eq_true (List.mem_filter.mp hr).2

theorem Busy.eq (h : Busy c runs old r) {b : Run} (hb : b ∈ runs) (hc : b.sig.componentId = c)
    (hrun : b.status = .running) : b = r := by
  have hmem : b ∈ runsOf c runs := List.mem_filter.mpr ⟨hb, decide_eq_true hc⟩
  rw [h.runs] at hmem
  rcases List.mem_append.mp hmem with hold | hlast
  · exact absurd hrun (h.ended b hold)
  · exact List.mem_singleton.mp hlast

theorem Busy.set (h : Busy c runs old r) {k : Nat} {r' : Run} (hk : runs[k]? = some r)
    (hsig : r'.sig = r.sig) (hrun : r'.status = .running) : Busy c (runs.set k r') old r' := by
  have hc := h.isOf
  refine ⟨filter_set_last hk (decide_eq_true hc) (decide_eq_true (hsig ▸ hc)) h.runs h.not_mem, hrun,
    h.ended⟩

theorem Recorded.mono (h : Recorded c st books) (horigins : originsOf c st' = originsOf c st) :
    Recorded c st' books := ⟨horigins.trans h.items, h.copied⟩

theorem Ledger.mono (h : Ledger c st old books) (horigins : originsOf c st' = originsOf c st) :
    Ledger c st' old books := ⟨h.recorded.mono horigins, h.filed, h.order⟩

/-- A step that leaves the runs of c, its work items and its key as they are. -/
theorem Stage.keep (h : Stage c st runs w) {runs' : List Run} (hruns : runsOf c runs' = runsOf c runs)
    (horigins : originsOf c st' = originsOf c st)
    (hkey : st'.redis.strings (dedupKey c) = st.redis.strings (dedupKey c)) :
    Stage c st' runs' w := by
  have hagrees {books : List Book} (h : KeyAgrees c st w books) : KeyAgrees c st' w books := by
    rw [KeyAgrees, hkey]
    exact h
  have hheld {r : Run} {won : Bool} (h : KeyHeld c st w r won) : KeyHeld c st' w r won := by
    rw [KeyHeld, hkey]
    exact h
  have hbusy {old : List Run} {r : Run} (h : Busy c runs old r) : Busy c runs' old r :=
    ⟨hruns.trans h.runs, h.running, h.ended⟩
  cases h with
  | settled books hledger hgroups hkey =>
      exact .settled books (hruns ▸ hledger.mono horigins) hgroups (hagrees hkey)
  | undecided old r books hb hpc hledger hgroups hkey =>
      exact .undecided old r books (hbusy hb) hpc (hledger.mono horigins) hgroups (hagrees hkey)
  | creating old r books won hb hpc hledger hgroups hkey =>
      exact .creating old r books won (hbusy hb) hpc (hledger.mono horigins) hgroups (hheld hkey)
  | publishing old r books won wi hb hpc hrecorded hfiled horder hgroups hkey =>
      exact .publishing old r books won wi (hbusy hb) hpc (hrecorded.mono horigins) hfiled horder
        hgroups (hheld hkey)

/-- The key of c vanishes, and nothing else of c changes. -/
theorem Stage.lapse (h : Stage c st runs w) (horigins : originsOf c st' = originsOf c st)
    (hgone : st'.redis.strings (dedupKey c) = none)
    (hwas : st.redis.strings (dedupKey c) ≠ none) : Stage c st' runs (w.feed none) := by
  have hagrees {books : List Book} : KeyAgrees c st' (w.feed none) books := .inl ⟨rfl, hgone⟩
  have hheld {r : Run} {won : Bool} (h : KeyHeld c st w r won) : KeyHeld c st' (w.feed none) r won := by
    cases won with
    | true => exact .inl ⟨rfl, rfl, hgone⟩
    | false =>
        rcases h with ⟨hwon, _⟩ | ⟨_, hkey⟩
        · cases hwon
        · exact absurd hkey hwas
  cases h with
  | settled books hledger hgroups _ => exact .settled books (hledger.mono horigins) hgroups hagrees
  | undecided old r books hb hpc hledger hgroups _ =>
      exact .undecided old r books hb hpc (hledger.mono horigins) hgroups hagrees
  | creating old r books won hb hpc hledger hgroups hkey =>
      exact .creating old r books won hb hpc (hledger.mono horigins) hgroups (hheld hkey)
  | publishing old r books won wi hb hpc hrecorded hfiled horder hgroups hkey =>
      exact .publishing old r books won wi hb hpc (hrecorded.mono horigins) hfiled horder hgroups
        (hheld hkey)

theorem runStep_placed {now id : Int} {r' : Run} (h : RunStep now st r st' r')
    (hpc : placed r.pc = some id) :
    st'.redis.strings = st.redis.strings ∧ origins st' = origins st ∧ placed r'.pc = some id := by
  cases h with
  | stay _ _ _ hstay => exact ⟨rfl, rfl, by rw [hstay, hpc]⟩
  | insert h | win h _ | lose h _ _ | create _ h | publishGone _ h _ | publishOver _ _ h _
  | publishAnyway _ h | findGone h _ | findItem _ h _ =>
      rw [h] at hpc
      cases hpc
  | push v h | dispatch v _ h | link v h | backfill v h | skipBackfill v h | meter v h =>
      rw [h] at hpc
      exact ⟨rfl, rfl, hpc⟩
  | increment v h =>
      rw [h] at hpc
      exact ⟨rfl, origins_increment _ _ _, hpc⟩

theorem originsOf_congr (h : origins st' = origins st) : originsOf c st' = originsOf c st := by
  rw [originsOf, h, originsOf]

/-- A run past its publication changes nothing that the debouncer sees. -/
theorem Stage.settle {k : Nat} {now : Int} {r' : Run} (hledger : Ledger c st (runsOf c runs) books)
    (hgroups : w.groups = books.map Prod.fst) (hkey : KeyAgrees c st w books)
    (hk : runs[k]? = some r) (hc : r.sig.componentId = c) (hstep : RunStep now st r st' r') :
    Stage c st' (runs.set k r') w := by
  obtain ⟨hsig, _⟩ := runStep_sig hstep
  have htag : tag r' = tag r := by rw [tag, tag, runStep_mongoId hstep, hsig]
  have hr : r ∈ runsOf c runs := List.mem_filter.mpr ⟨List.mem_of_getElem? hk, decide_eq_true hc⟩
  obtain ⟨b, hb, hplaced, hin⟩ := hledger.filed r hr
  obtain ⟨hstrings, horigins, hplaced'⟩ := runStep_placed hstep hplaced
  have hr' : isOf c r' = true := decide_eq_true (hsig ▸ hc)
  obtain ⟨l₁, l₂, hold, hnew⟩ := filter_set (p := isOf c) hk (decide_eq_true hc) hr'
  refine .settled books ⟨hledger.recorded.mono (originsOf_congr horigins), ?_, ?_⟩ hgroups ?_
  · intro a ha
    rw [runsOf, hnew] at ha
    rcases List.mem_append.mp ha with ha | ha
    · exact hledger.filed a (by rw [runsOf, hold]; exact List.mem_append_left _ ha)
    · rcases List.mem_cons.mp ha with rfl | ha
      · exact ⟨b, hb, hplaced', htag ▸ hin⟩
      · exact hledger.filed a (by
          rw [runsOf, hold]
          exact List.mem_append_right _ (List.mem_cons_of_mem _ ha))
  · rw [← hledger.order, runsOf, runsOf, hnew, hold]
    simp only [List.map_append, List.map_cons, htag]
  · rw [KeyAgrees, hstrings]
    exact hkey

theorem tag_goOn (r : Run) (pc : Pc) : tag (r.goOn pc) = tag r := rfl

theorem Busy.goOn (h : Busy c runs old r) {k : Nat} (hk : runs[k]? = some r) (pc : Pc) :
    Busy c (runs.set k (r.goOn pc)) old (r.goOn pc) := h.set hk rfl h.running

/-- The winner of the claim opens a window. -/
theorem Stage.win {k : Nat} (hbusy : Busy c runs old r) (hk : runs[k]? = some r)
    (hledger : Ledger c st old books) (hgroups : w.groups = books.map Prod.fst)
    (hkey : KeyAgrees c st w books) (hnone : st.redis.strings (dedupKey c) = none) :
    Stage c { st with redis := st.redis.set (keyOf r) (placeholder r.mongoId) }
      (runs.set k (r.goOn (.create true))) (w.feed (some (tag r))) := by
  have hshut : w.current = [] := by
    rcases hkey with ⟨hshut, _⟩ | ⟨_, b, _, hsome⟩
    · exact hshut
    · cases hnone.symm.trans hsome
  refine .creating old (r.goOn (.create true)) books true (hbusy.goOn hk _) rfl
    (hledger.mono rfl) ?_ (.inr ⟨?_, ?_⟩)
  · rw [groups_found hshut, hgroups, tag_goOn]
  · rw [current_join, hshut, List.nil_append, tag_goOn]
  · rw [if_pos rfl]
    have hkeyOf : keyOf r = dedupKey c := congrArg dedupKey hbusy.isOf
    simp only [Redis.set, hkeyOf, Function.update_self]
    rfl

/-- A run that finds the key gone opens a window too. -/
theorem Stage.findGone {k : Nat} (hbusy : Busy c runs old r) (hk : runs[k]? = some r)
    (hledger : Ledger c st old books) (hgroups : w.groups = books.map Prod.fst)
    (hkey : KeyAgrees c st w books) (hnone : st.redis.strings (dedupKey c) = none) :
    Stage c st (runs.set k (r.goOn (.create false))) (w.feed (some (tag r))) := by
  have hshut : w.current = [] := by
    rcases hkey with ⟨hshut, _⟩ | ⟨_, b, _, hsome⟩
    · exact hshut
    · cases hnone.symm.trans hsome
  refine .creating old (r.goOn (.create false)) books false (hbusy.goOn hk _) rfl hledger ?_
    (.inr ⟨?_, ?_⟩)
  · rw [groups_found hshut, hgroups, tag_goOn]
  · rw [current_join, hshut, List.nil_append, tag_goOn]
  · rw [hnone]
    rfl

/-- A run that reads the id of the work item joins the open window. -/
theorem Stage.findItem {k : Nat} {b : Book} (hbusy : Busy c runs old r) (hk : runs[k]? = some r)
    (hledger : Ledger c st old books) (hgroups : w.groups = books.map Prod.fst)
    (hopen : w.current ≠ []) (hlast : books.getLast? = some b)
    (hkey : st.redis.strings (dedupKey c) = some (str b.2.id)) :
    Stage c st (runs.set k (r.goOn (.increment b.2.id))) (w.feed (some (tag r))) := by
  obtain ⟨older, rfl⟩ := List.getLast?_eq_some_iff.mp hlast
  rw [groups_open hopen, List.map_append, List.map_singleton] at hgroups
  obtain ⟨hclosed, hcurrent⟩ := List.append_inj' hgroups rfl
  have hcurrent : w.current = b.1 := by simpa using hcurrent
  have hnew := hbusy.goOn hk (.increment b.2.id)
  obtain ⟨⟨hitems, hcopied⟩, hfiled, horder⟩ := hledger
  have hmem : (b.1 ++ [tag r], b.2) ∈ older ++ [(b.1 ++ [tag r], b.2)] :=
    List.mem_append_right _ List.mem_cons_self
  refine .settled (older ++ [(b.1 ++ [tag r], b.2)]) ⟨⟨?_, ?_⟩, ?_, ?_⟩ ?_ (.inr ⟨?_, ?_⟩)
  · rw [hitems]
    simp only [List.map_append, List.map_singleton]
  · refine forall_push (fun a ha => hcopied a (List.mem_append_left _ ha)) ?_
    obtain ⟨a, now, hfirst, hcopy⟩ := hcopied b (List.mem_append_right _ List.mem_cons_self)
    exact ⟨a, now, by rw [List.head?_append, hfirst, Option.some_or], hcopy⟩
  · rw [hnew.runs]
    refine forall_push (fun a ha => ?_) ⟨_, hmem, rfl, List.mem_append_right _ List.mem_cons_self⟩
    obtain ⟨b', hb', hplaced, hin⟩ := hfiled a ha
    rcases List.mem_append.mp hb' with hb' | hb'
    · exact ⟨b', List.mem_append_left _ hb', hplaced, hin⟩
    · cases List.mem_singleton.mp hb'
      exact ⟨_, hmem, hplaced, List.mem_append_left _ hin⟩
  · rw [hnew.runs, List.map_append, horder]
    simp [tag_goOn]
  · rw [groups_join, hclosed, hcurrent, List.map_append]
    rfl
  · rw [current_join]
    exact List.append_ne_nil_of_right_ne_nil _ (List.cons_ne_nil _ _)
  · exact ⟨_, List.getLast?_concat, hkey⟩

theorem Stage.create {k : Nat} {won : Bool} (now : Int) (hbusy : Busy c runs old r)
    (hk : runs[k]? = some r) (hledger : Ledger c st old books)
    (hgroups : w.groups = books.map Prod.fst ++ [[tag r]]) (hkey : KeyHeld c st w r won) :
    Stage c { st with postgres := { st.postgres with
        workItems := st.postgres.workItems ++ [newWorkItem r.sig (st.postgres.workItemsSeq + 1) now]
        workItemsSeq := st.postgres.workItemsSeq + 1 } }
      (runs.set k (r.goOn (.publish won (st.postgres.workItemsSeq + 1)))) w := by
  refine .publishing old (r.goOn _) books won
    (newWorkItem r.sig (st.postgres.workItemsSeq + 1) now) (hbusy.goOn hk _) rfl ⟨?_, ?_⟩
    hledger.filed hledger.order hgroups hkey
  · rw [List.map_append, ← hledger.recorded.items, originsOf, originsOf, origins, List.map_append,
      List.filter_append]
    congr 1
    exact List.filter_cons_of_pos (decide_eq_true hbusy.isOf)
  · exact forall_push hledger.recorded.copied ⟨tag r, now, rfl, rfl⟩

/-- After the publication the key names the new work item, or is gone with the window. -/
theorem Stage.publish {k : Nat} {wi : WorkItem} {pc : Pc} (hbusy : Busy c runs old r)
    (hk : runs[k]? = some r) (hrecorded : Recorded c st (books ++ [([tag r], wi)]))
    (hfiled : ∀ b ∈ old, Filed books b) (horder : old.map tag = (books.map Prod.fst).flatten)
    (hgroups : w.groups = books.map Prod.fst ++ [[tag r]]) (hpc : placed pc = some wi.id)
    (horigins : originsOf c st' = originsOf c st)
    (hkey : w.current = [] ∧ st'.redis.strings (dedupKey c) = none ∨
      w.current ≠ [] ∧ st'.redis.strings (dedupKey c) = some (str wi.id)) :
    Stage c st' (runs.set k (r.goOn pc)) w := by
  have hnew := hbusy.goOn hk pc
  have hmem : (([tag r], wi) : Book) ∈ books ++ [([tag r], wi)] :=
    List.mem_append_right _ List.mem_cons_self
  refine .settled (books ++ [([tag r], wi)]) ⟨hrecorded.mono horigins, ?_, ?_⟩ ?_ ?_
  · rw [hnew.runs]
    refine forall_push (fun a ha => ?_) ⟨_, hmem, hpc, List.mem_cons_self⟩
    obtain ⟨b, hb, hrest⟩ := hfiled a ha
    exact ⟨b, List.mem_append_left _ hb, hrest⟩
  · rw [hnew.runs, List.map_append, horder]
    simp [tag_goOn]
  · rw [hgroups, List.map_append]
    rfl
  · rcases hkey with hgone | ⟨hopen, hset⟩
    · exact .inl hgone
    · exact .inr ⟨hopen, _, List.getLast?_concat, hset⟩

theorem Ledger.placed (h : Ledger c st (runsOf c runs) books) (hr : r ∈ runs)
    (hc : r.sig.componentId = c) : ∃ b ∈ books, placed r.pc = some b.2.id := by
  obtain ⟨b, hb, hplaced, _⟩ := h.filed r (List.mem_filter.mpr ⟨hr, decide_eq_true hc⟩)
  exact ⟨b, hb, hplaced⟩

/-- With no overlap in a component, no run reads the placeholder of another. -/
theorem Stage.reads (h : Stage c st runs w) (hr : r ∈ runs) (hc : r.sig.componentId = c)
    (hrun : r.status = .running) (hpc : r.pc = .getOpenWorkItem) :
    (st.redis.strings (dedupKey c)).any isPlaceholder = false := by
  cases h with
  | settled books hledger _ _ =>
      obtain ⟨b, _, hplaced⟩ := hledger.placed hr hc
      rw [hpc] at hplaced
      cases hplaced
  | undecided old r' books hbusy _ _ _ hkey =>
      rcases hkey with ⟨_, hnone⟩ | ⟨_, b, _, hsome⟩
      · rw [hnone]
        rfl
      · rw [hsome]
        exact Workers.not_isPlaceholder_str _
  | creating old r' books won hbusy hpc' =>
      cases hbusy.eq hr hc hrun
      cases hpc.symm.trans hpc'
  | publishing old r' books won wi hbusy hpc' =>
      cases hbusy.eq hr hc hrun
      cases hpc.symm.trans hpc'

theorem runStep_keyed {now : Int} {r' : Run} (h : RunStep now st r st' r') (c : String)
    (hkeyed : keyed c st = true) : keyed c st' = true := by
  have hset {v : String}
      (hkeys : st'.redis.strings = Function.update st.redis.strings (keyOf r) (some v)) :
      keyed c st' = true := by
    rw [keyed, hkeys]
    by_cases hc : dedupKey c = keyOf r
    · rw [hc, Function.update_self]
      rfl
    · rw [Function.update_of_ne hc]
      exact hkeyed
  rcases runStep_keys h with ⟨_, _, _, hkeys⟩ | ⟨_, _, _, _, _, _, hkeys⟩ | ⟨hkeys, _⟩
  · exact hset hkeys
  · exact hset hkeys
  · rwa [keyed, hkeys]

theorem runStep_elsewhere {now : Int} {r' : Run} (h : RunStep now st r st' r')
    (hc : r.sig.componentId ≠ c) :
    originsOf c st' = originsOf c st ∧
      st'.redis.strings (dedupKey c) = st.redis.strings (dedupKey c) := by
  have hne : dedupKey c ≠ keyOf r := fun he => hc (dedupKey_injective he).symm
  refine ⟨?_, ?_⟩
  · rcases runStep_items h with ⟨_, _, _, hitems, _⟩ | ⟨horigins, _⟩
    · rw [originsOf, originsOf, origins, hitems, List.map_append, List.filter_append]
      refine List.append_right_eq_self.mpr (List.filter_cons_of_neg ?_)
      exact fun hin => hc (of_decide_eq_true hin)
    · exact originsOf_congr horigins
  · rcases runStep_keys h with ⟨_, _, _, hkeys⟩ | ⟨_, _, _, _, _, _, hkeys⟩ | ⟨hkeys, _⟩
    · rw [hkeys, Function.update_of_ne hne]
    · rw [hkeys, Function.update_of_ne hne]
    · rw [hkeys]

theorem joins_run {k : Nat} (hk : s.runs[k]? = some r) (hc : r.sig.componentId = c) :
    joins c s (.run k .ok) =
      if r.pc = .claim ∧ keyed c s.stores = false ∨ r.pc = .getOpenWorkItem then [some (tag r)]
      else [] := by
  simp only [joins, hk, hc, true_and]

/-- Where an operation of a run of c succeeds, the stage follows. -/
theorem Stage.perform (h : Stage c s.stores s.runs w) (hwf : Wf s) {k : Nat} {pc : Pc}
    (hk : s.runs[k]? = some r) (hc : r.sig.componentId = c) (hrun : r.status = .running)
    (hreply : (r.perform s.clock s.stores).2 = .ok pc) :
    Stage c (r.perform s.clock s.stores).1 (s.runs.set k (r.goOn pc))
      ((joins c s (.run k .ok)).foldl Windows.feed w) := by
  have hr := List.mem_of_getElem? hk
  have hstep := perform_runStep s.clock s.stores r
  have hkeyOf : keyOf r = dedupKey c := congrArg dedupKey hc
  rw [hreply] at hstep
  rw [joins_run hk hc]
  cases h with
  | settled books hledger hgroups hkey =>
      obtain ⟨b, _, hplaced⟩ := hledger.placed hr hc
      have hno : ¬ (r.pc = .claim ∧ keyed c s.stores = false ∨ r.pc = .getOpenWorkItem) := by
        rintro (⟨hpc, _⟩ | hpc)
        · rw [hpc] at hplaced
          cases hplaced
        · rw [hpc] at hplaced
          cases hplaced
      rw [if_neg hno]
      exact Stage.settle hledger hgroups hkey hk hc hstep
  | undecided old b books hbusy hpc hledger hgroups hkey =>
      cases hbusy.eq hr hc hrun
      rcases hpc with hpc | hpc | hpc
      · have hfresh : r.rawDoc.id ∉ s.stores.mongo.map Mongo.Document.id :=
          fresh_mongoId hwf.docs hr (by rw [hpc]; rfl)
        simp only [Run.perform, hpc, Mongo.insertSignal, if_neg hfresh, Except.ok.injEq]
          at hreply ⊢
        cases hreply
        simp only [reduceCtorEq, false_and, or_self, if_false]
        exact .undecided old _ books (hbusy.goOn hk _) (.inr (.inl rfl)) (hledger.mono rfl) hgroups hkey
      · cases hnone : s.stores.redis.strings (dedupKey c) with
        | none =>
            have hkeyed : keyed c s.stores = false := DedupOwners.keyed_none.mpr hnone
            rw [← hc] at hnone
            simp only [Run.perform, hpc, setNx_none hnone, if_true, Except.ok.injEq] at hreply ⊢
            cases hreply
            rw [if_pos (.inl ⟨trivial, hkeyed⟩)]
            exact Stage.win hbusy hk hledger hgroups hkey (hc ▸ hnone)
        | some v =>
            have hkeyed : keyed c s.stores = true := DedupOwners.keyed_some hnone
            rw [← hc] at hnone
            simp only [Run.perform, hpc, setNx_some hnone, Except.ok.injEq] at hreply ⊢
            cases hreply
            simp only [hkeyed, Bool.true_eq_false, and_false, reduceCtorEq, or_self, if_false]
            exact .undecided old _ books (hbusy.goOn hk _) (.inr (.inr rfl)) hledger hgroups hkey
      · rw [if_pos (.inr hpc)]
        rcases hkey with ⟨hshut, hnone⟩ | ⟨hopen, b, hlast, hsome⟩
        · simp only [Run.perform, hpc, hc, getOpenWorkItem_none hnone, Except.ok.injEq] at hreply ⊢
          cases hreply
          exact Stage.findGone hbusy hk hledger hgroups (.inl ⟨hshut, hnone⟩) hnone
        · simp only [Run.perform, hpc, hc, getOpenWorkItem_str hsome, Except.ok.injEq] at hreply ⊢
          cases hreply
          exact Stage.findItem hbusy hk hledger hgroups hopen hlast hsome
  | creating old b books won hbusy hpc hledger hgroups hkey =>
      cases hbusy.eq hr hc hrun
      simp only [Run.perform, hpc, PostgresRepo.createWorkItem, Except.ok.injEq] at hreply ⊢
      cases hreply
      simp only [reduceCtorEq, false_and, or_self, if_false]
      exact Stage.create s.clock hbusy hk hledger hgroups hkey
  | publishing old b books won wi hbusy hpc hrecorded hfiled horder hgroups hkey =>
      cases hbusy.eq hr hc hrun
      have hno : ¬ (r.pc = .claim ∧ keyed c s.stores = false ∨ r.pc = .getOpenWorkItem) := by
        simp [hpc]
      rw [if_neg hno]
      have hopen : w.current = [tag r] → w.current ≠ [] := fun h => by simp [h]
      have hset : (s.stores.redis.set (keyOf r) (str wi.id)).strings (dedupKey c) =
          some (str wi.id) := by
        simp [Redis.set, hkeyOf]
      cases won with
      | true =>
          rcases hkey with ⟨_, hshut, hnone⟩ | ⟨hcurrent, hheld⟩
          · rw [← hkeyOf, keyOf] at hnone
            simp only [Run.perform, hpc, setXx_none hnone, Except.ok.injEq] at hreply ⊢
            cases hreply
            exact Stage.publish hbusy hk hrecorded hfiled horder hgroups rfl rfl
              (.inl ⟨hshut, hkeyOf ▸ hnone⟩)
          · rw [if_pos rfl, ← hkeyOf, keyOf] at hheld
            simp only [Run.perform, hpc, setXx_some hheld, Except.ok.injEq] at hreply ⊢
            cases hreply
            exact Stage.publish hbusy hk hrecorded hfiled horder hgroups rfl rfl
              (.inr ⟨hopen hcurrent, hset⟩)
      | false =>
          rcases hkey with ⟨hwon, _⟩ | ⟨hcurrent, _⟩
          · cases hwon
          · simp only [Run.perform, hpc, Except.ok.injEq] at hreply ⊢
            cases hreply
            exact Stage.publish hbusy hk hrecorded hfiled horder hgroups rfl rfl
              (.inr ⟨hopen hcurrent, hset⟩)

theorem ends_eq (hs : step cfg s e = some t) (c : String) :
    ends cfg c s e = if keyed c s.stores && !keyed c t.stores then [none] else [] := by
  rw [ends, hs, Option.any_some]

theorem ends_kept (hs : step cfg s e = some t) (hkept : keyed c s.stores = true → keyed c t.stores = true) :
    ends cfg c s e = [] := by
  rw [ends_eq hs]
  cases hkeyed : keyed c s.stores with
  | false => rfl
  | true => rw [hkept hkeyed]; rfl

theorem joins_elsewhere {k : Nat} {o : Outcome} (hk : s.runs[k]? = some r)
    (hc : r.sig.componentId ≠ c) : joins c s (.run k o) = [] := by
  cases o <;> simp [joins, hk, hc]

/-- The stage of every component is at hand, so none of its runs reads a placeholder. -/
theorem reads_step {W : String → Windows Tag} (h : ∀ c, Stage c s.stores s.runs (W c))
    (hs : step cfg s e = some t) : readsPlaceholder s e = false := by
  cases e with
  | run k o =>
      obtain ⟨r, _, hk, hrun, _⟩ := Effects.own_step hs rfl
      cases o with
      | ok =>
          simp only [readsPlaceholder, hk, Option.any_some, Bool.and_eq_false_iff, decide_eq_false_iff_not]
          by_cases hpc : r.pc = .getOpenWorkItem
          · exact .inr ((h _).reads (List.mem_of_getElem? hk) rfl hrun hpc)
          · exact .inl hpc
      | fail | lost => rfl
  | _ => rfl

theorem runsOf_elsewhere {k : Nat} {b : Run} (hk : runs[k]? = some r) (hsig : b.sig = r.sig)
    (hc : r.sig.componentId ≠ c) : runsOf c (runs.set k b) = runsOf c runs :=
  filter_set_keep hk (decide_eq_false hc) (decide_eq_false (hsig ▸ hc))

theorem stage_run {W : String → Windows Tag} {k : Nat} (h : ∀ c, Stage c s.stores s.runs (W c))
    (hwf : Wf s) (hs : step cfg s (.run k .ok) = some t) (c : String) :
    Stage c t.stores t.runs ((marks cfg c s (.run k .ok)).foldl Windows.feed (W c)) := by
  obtain ⟨r, hk, hrun, ⟨v, hpc, hst, hruns⟩ | ⟨_, pc, hreply, hst, hruns⟩⟩ :=
    smooth_run hs hwf (reads_none (reads_step h hs))
  · have hends : ends cfg c s (.run k .ok) = [] := ends_kept hs fun hkeyed => hst ▸ hkeyed
    rw [marks, hends, List.append_nil, hst, hruns]
    by_cases hc : r.sig.componentId = c
    · have hjoins : joins c s (.run k .ok) = [] := by simp [joins_run hk hc, hpc]
      rw [hjoins, List.foldl_nil]
      cases h c with
      | settled books hledger hgroups hkey =>
          have hstay : RunStep s.clock s.stores r s.stores { r with status := .returned } :=
            .stay _ rfl rfl rfl
          exact Stage.settle hledger hgroups hkey hk hc hstay
      | undecided old b books hbusy hpc' =>
          cases hbusy.eq (List.mem_of_getElem? hk) hc hrun
          rcases hpc' with hpc' | hpc' | hpc' <;> cases hpc.symm.trans hpc'
      | creating old b books won hbusy hpc' =>
          cases hbusy.eq (List.mem_of_getElem? hk) hc hrun
          cases hpc.symm.trans hpc'
      | publishing old b books won wi hbusy hpc' =>
          cases hbusy.eq (List.mem_of_getElem? hk) hc hrun
          cases hpc.symm.trans hpc'
    · rw [joins_elsewhere hk hc, List.foldl_nil]
      exact (h c).keep (runsOf_elsewhere (b := { r with status := .returned }) hk rfl hc) rfl rfl
  · have hstep := perform_runStep s.clock s.stores r
    have hends : ends cfg c s (.run k .ok) = [] :=
      ends_kept hs fun hkeyed => hst ▸ runStep_keyed hstep c hkeyed
    rw [marks, hends, List.append_nil, hst, hruns]
    by_cases hc : r.sig.componentId = c
    · exact (h c).perform hwf hk hc hrun hreply
    · obtain ⟨horigins, hkey⟩ := runStep_elsewhere hstep hc
      rw [joins_elsewhere hk hc, List.foldl_nil]
      exact (h c).keep (runsOf_elsewhere (b := r.goOn pc) hk rfl hc) horigins hkey

/-- A new run for c finds no other in flight. -/
theorem Stage.get (h : Stage c st runs w) (hr : r.sig.componentId = c) (hrun : r.status = .running)
    (hpc : r.pc = .insertSignal) (hfree : ∀ b ∈ runsOf c runs, b.status ≠ .running) :
    Stage c st (runs ++ [r]) w := by
  have hbusy : Busy c (runs ++ [r]) (runsOf c runs) r := by
    refine ⟨?_, hrun, hfree⟩
    rw [runsOf, List.filter_append]
    exact congrArg _ (List.filter_cons_of_pos (decide_eq_true hr))
  have hfull {old : List Run} {b : Run} (hb : Busy c runs old b) : False :=
    hfree b (hb.runs ▸ List.mem_append_right _ List.mem_cons_self) hb.running
  cases h with
  | settled books hledger hgroups hkey =>
      exact .undecided _ r books hbusy (.inl hpc) hledger hgroups hkey
  | undecided _ _ _ hb | creating _ _ _ _ hb | publishing _ _ _ _ _ hb => exact (hfull hb).elim

theorem env_step (hs : step cfg s e = some t) (hget : ∀ oid, e ≠ .get oid) (hrun : runIndex e = none) :
    Tame s.stores t.stores ∧ t.runs = s.runs := by
  have hmove := step_move hs
  generalize t.stores = st, t.runs = runs, t.requests = requests at hmove ⊢
  cases hmove with
  | get oid => exact absurd rfl (hget oid)
  | run | finish | cancelRun => cases hrun
  | request o => exact ⟨tame_of_effect (ApiSteps.attempt_effect _ _ _ o), rfl⟩
  | expire key => exact ⟨tame_expire _ key, rfl⟩
  | burnWorkItemId => exact ⟨tame_burnWorkItemId _, rfl⟩
  | burnRcaId => exact ⟨tame_burnRcaId _, rfl⟩
  | quiet | abortRequest | call => exact ⟨.refl _, rfl⟩

/-- Requests and expiries can take the key of c, and leave the rest of it alone. -/
theorem Stage.env (h : Stage c s.stores s.runs w) (hs : step cfg s e = some t)
    (htame : Tame s.stores t.stores) (hruns : t.runs = s.runs) :
    Stage c t.stores t.runs ((ends cfg c s e).foldl Windows.feed w) := by
  have horigins := originsOf_congr (c := c) htame.origins
  rw [ends_eq hs, hruns]
  rcases htame.keys (dedupKey c) with hkey | hkey
  · have hkeyed : keyed c t.stores = keyed c s.stores := by rw [keyed, hkey, keyed]
    rw [hkeyed, Bool.and_not_self, if_neg Bool.false_ne_true]
    exact h.keep rfl horigins hkey
  · cases hwas : s.stores.redis.strings (dedupKey c) with
    | none =>
        rw [DedupOwners.keyed_none.mpr hwas, Bool.false_and, if_neg Bool.false_ne_true]
        exact h.keep rfl horigins (hkey.trans hwas.symm)
    | some v =>
        rw [DedupOwners.keyed_some hwas, DedupOwners.keyed_none.mpr hkey]
        exact h.lapse horigins hkey (by rw [hwas]; exact Option.some_ne_none v)

/-- One step of the service, seen by the debouncer of each component. -/
theorem stage_step {W : String → Windows Tag} (h : ∀ c, Stage c s.stores s.runs (W c)) (hwf : Wf s)
    (he : Smooth e) (hserial : serial s e = true) (hs : step cfg s e = some t) (c : String) :
    Stage c t.stores t.runs ((marks cfg c s e).foldl Windows.feed (W c)) := by
  cases e with
  | run k o =>
      cases show o = .ok from he
      exact stage_run h hwf hs c
  | cancelRun => exact absurd he id
  | get oid =>
      have hkept : ends cfg c s (.get oid) = [] := by
        refine ends_kept hs fun hkeyed => ?_
        cases step_taken hs
        exact hkeyed
      rw [marks, hkept]
      change Stage c t.stores t.runs (W c)
      cases step_taken hs with
      | get oid sig queue hqueue _ _ =>
          simp only [serial, hqueue, List.head?_cons, Option.all_some, List.all_eq_true] at hserial
          by_cases hc : sig.componentId = c
          · refine (h c).get hc rfl rfl fun b hb hrun => ?_
            obtain ⟨hb, hbc⟩ := List.mem_filter.mp hb
            have := hserial b hb
            simp [Draining.running_iff.mpr hrun, (of_decide_eq_true hbc).trans hc.symm] at this
          · refine (h c).keep ?_ rfl rfl
            rw [runsOf, List.filter_append, runsOf]
            exact List.append_right_eq_self.mpr (List.filter_cons_of_neg fun hin =>
              hc (of_decide_eq_true hin))
  | _ =>
      obtain ⟨htame, hruns⟩ := env_step hs (fun _ he => by cases he) rfl
      exact (h c).env hs htame hruns

theorem stage_trace {n : Nat} {es : List Event}
    (h : Trace (step cfg) (fun s e => Smooth e ∧ serial s e = true) (init n) es s) (c : String) :
    Stage c s.stores s.runs (windows (history cfg n c es)) := by
  refine (h.invariant_past (fun es s => Wf s ∧
    ∀ c, Stage c s.stores s.runs (windows (history cfg n c es))) ⟨wf_init n, fun c => ?_⟩ ?_).2 c
  · exact .settled [] ⟨⟨rfl, fun _ hb => absurd hb List.not_mem_nil⟩,
      fun _ hr => absurd hr List.not_mem_nil, rfl⟩ rfl (.inl ⟨rfl, rfl⟩)
  · rintro es s e t h ⟨hwf, hstage⟩ ⟨he, hserial⟩ hs
    refine ⟨wf_step hwf hs (clean_of_smooth he), fun c => ?_⟩
    rw [history, h.gather_next hs, windows_append]
    exact stage_step hstage hwf he hserial hs c

end Ims.SerialDebouncer
