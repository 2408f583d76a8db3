import Ims.Models
import Ims.Library.SortedSet

namespace Ims.RedisCache

open Library.Text Library.SortedSet Models

def dedupKeyPrefix : String := "dedup:"

def severityScore (severity : String) : Int :=
  if severity = "INFO" then 1
  else if severity = "WARN" then 2
  else if severity = "ERROR" then 3
  else if severity = "CRITICAL" then 4
  else 0

/-- The string keys, and the sorted set under LIVE_FEED_KEY. -/
structure Redis where
  strings : String → Option String
  liveFeed : ZSet

def empty : Redis := ⟨fun _ => none, []⟩

def dedupKey (componentId : String) : String := dedupKeyPrefix ++ componentId

/-- SET with nx=True: the second part says whether the key was set. -/
def Redis.setNx (r : Redis) (key value : String) : Redis × Bool :=
  match r.strings key with
  | none => ({ r with strings := Function.update r.strings key (some value) }, true)
  | some _ => (r, false)

def Redis.setXx (r : Redis) (key value : String) : Redis :=
  match r.strings key with
  | none => r
  | some _ => { r with strings := Function.update r.strings key (some value) }

def Redis.set (r : Redis) (key value : String) : Redis :=
  { r with strings := Function.update r.strings key (some value) }

def Redis.delete (r : Redis) (key : String) : Redis :=
  { r with strings := Function.update r.strings key none }

def getOpenWorkItem (r : Redis) (componentId : String) : Except Exc (Option Int) :=
  match r.strings (dedupKey componentId) with
  | none => .ok none
  | some val =>
      if val = "" then .ok none
      else match int val with
        | some n => .ok (some n)
        | none => .error .valueError

def clearDedup (r : Redis) (componentId : String) : Redis := r.delete (dedupKey componentId)

def feedMember (workItemId : Int) (payload : String) : String := str workItemId ++ "|" ++ payload

def pushLiveFeed (r : Redis) (workItemId : Int) (severity payload : String) : Redis :=
  { r with liveFeed := zadd (feedMember workItemId payload) (severityScore severity) r.liveFeed }

def getLiveFeed (r : Redis) (limit : Nat) : List (String × Int) := zrevrange limit r.liveFeed

def isEntryOf (workItemId : Int) (member : String) : Bool :=
  (str workItemId ++ "|").toList.isPrefixOf member.toList

/-- The id that the part of a member before its first bar stands for. -/
def decodedId (member : String) : Option Int := int (partition '|' member).1

variable {r : Redis} {key v value : String}

theorem setNx_none (h : r.strings key = none) : r.setNx key value = (r.set key value, true) := by
  simp only [Redis.setNx, h, Redis.set]

theorem setNx_some (h : r.strings key = some v) : r.setNx key value = (r, false) := by
  simp only [Redis.setNx, h]

theorem setXx_none (h : r.strings key = none) : r.setXx key value = r := by
  simp only [Redis.setXx, h]

theorem setXx_some (h : r.strings key = some v) : r.setXx key value = r.set key value := by
  simp only [Redis.setXx, h, Redis.set]

theorem dedupKey_injective {c d : String} (h : dedupKey c = dedupKey d) : c = d :=
  (String.append_right_inj dedupKeyPrefix).mp h

theorem getOpenWorkItem_none {c : String} (h : r.strings (dedupKey c) = none) :
    getOpenWorkItem r c = .ok none := by
  simp only [getOpenWorkItem, h]

theorem getOpenWorkItem_str {c : String} {w : Int} (h : r.strings (dedupKey c) = some (str w)) :
    getOpenWorkItem r c = .ok (some w) := by
  simp only [getOpenWorkItem, h, str_ne_empty, if_false, int_str]

theorem getOpenWorkItem_some {c : String} {w : Int} (h : getOpenWorkItem r c = .ok (some w)) :
    ∃ v, r.strings (dedupKey c) = some v ∧ int v = some w := by
  unfold getOpenWorkItem at h
  split at h
  · cases h
  · next v hv =>
    split at h
    · cases h
    · split at h
      · next n hn =>
        cases h
        exact ⟨v, hv, hn⟩
      · cases h

theorem bar_not_mem_str (w : Int) : '|' ∉ (str w).toList := not_mem_str (by decide) (by decide) w

theorem partition_feedMember (w : Int) (payload : String) :
    partition '|' (feedMember w payload) = (str w, "|", payload) := by
  apply partition_eq (bar_not_mem_str w)
  rw [feedMember, String.toList_append, String.toList_append, List.append_assoc]
  rfl

theorem decodedId_feedMember (w : Int) (payload : String) :
    decodedId (feedMember w payload) = some w := by
  rw [decodedId, partition_feedMember, int_str]

theorem isEntryOf_iff {i : Int} {member : String} :
    isEntryOf i member = true ↔ ∃ payload, member = feedMember i payload := by
  rw [isEntryOf, List.isPrefixOf_iff_prefix]
  constructor
  · rintro ⟨rest, hrest⟩
    refine ⟨String.ofList rest, String.toList_inj.mp ?_⟩
    rw [feedMember, String.toList_append, String.toList_ofList, hrest]
  · rintro ⟨payload, rfl⟩
    exact ⟨payload.toList, (String.toList_append ..).symm⟩

/-- The prefix that removal looks for decodes to the id it is for. -/
theorem decodedId_of_isEntryOf {i : Int} {member : String} (h : isEntryOf i member = true) :
    decodedId member = some i := by
  obtain ⟨payload, rfl⟩ := isEntryOf_iff.mp h
  exact decodedId_feedMember i payload

theorem isEntryOf_feedMember {i w : Int} {payload : String} :
    isEntryOf i (feedMember w payload) = true ↔ i = w := by
  constructor
  · intro h
    have hid := decodedId_of_isEntryOf h
    rw [decodedId_feedMember] at hid
    exact (Option.some.inj hid).symm
  · rintro rfl
    exact isEntryOf_iff.mpr ⟨payload, rfl⟩

end Ims.RedisCache
