import FeoxServer.Foundation.ListSet
import FeoxServer.Pubsub.Message

/-!
# The registry that all threads share

It knows which threads are interested in which channels and patterns, how many
subscribers there are, and holds the bounded inboxes of the threads.
-/

namespace FeoxServer

open Foundation

def inboxCapacity : Nat := 1024

structure GlobalRegistry where
  channelToThreads : AList fun _ : Bytes => ListSet ThreadId
  patternToThreads : AList fun _ : Bytes => ListSet ThreadId
  channelSubscriberCounts : AList fun _ : Bytes => Nat
  patternSubscriberCounts : AList fun _ : Bytes => Nat
  inboxes : List (List BroadcastMsg)

abbrev Interests : Type :=
  AList fun _ : Bytes => ListSet ThreadId

namespace Interests

def threads (interests : Interests) (name : Bytes) : ListSet ThreadId :=
  (interests.lookup name).getD .empty

def add (interests : Interests) (name : Bytes) (thread : ThreadId) : Interests :=
  interests.insert name ((interests.threads name).insert thread)

def remove (interests : Interests) (name : Bytes) (thread : ThreadId) :
    Interests :=
  match interests.lookup name with
  | some entry =>
      if (entry.remove thread).isEmpty then interests.erase name
      else interests.insert name (entry.remove thread)
  | none => interests

theorem mem_threads_add {interests : Interests} {name name' : Bytes}
    {thread thread' : ThreadId} :
    thread' ∈ (interests.add name thread).threads name' <->
      thread' ∈ interests.threads name' ∨ name' = name ∧ thread' = thread := by
  unfold add
  by_cases h : name' = name
  · subst h
    simp [threads]
  · simp [threads, h]

theorem mem_threads_remove {interests : Interests} {name name' : Bytes}
    {thread thread' : ThreadId} :
    thread' ∈ (interests.remove name thread).threads name' <->
      thread' ∈ interests.threads name' ∧ ¬ (name' = name ∧ thread' = thread) := by
  unfold remove
  cases hentry : interests.lookup name with
  | none =>
      simp only
      constructor
      · intro hmem
        refine ⟨hmem, ?_⟩
        rintro ⟨rfl, _⟩
        rw [threads, hentry] at hmem
        exact ListSet.mem_empty _ hmem
      · exact And.left
  | some entry =>
      have hthreads : interests.threads name = entry := by
        rw [threads, hentry]
        rfl
      by_cases hempty : (entry.remove thread).isEmpty
      · simp only [if_pos hempty]
        by_cases h : name' = name
        · subst h
          have hnone := ListSet.isEmpty_iff.mp hempty thread'
          rw [ListSet.mem_remove] at hnone
          rw [hthreads]
          simp only [threads, AList.lookup_erase, Option.getD_none,
            ListSet.mem_empty, true_and, false_iff]
          exact hnone
        · simp [threads, h]
      · simp only [if_neg hempty]
        by_cases h : name' = name
        · subst h
          rw [hthreads]
          simp [threads]
        · simp [threads, h]

end Interests

abbrev Counters : Type :=
  AList fun _ : Bytes => Nat

namespace Counters

def increment (counters : Counters) (name : Bytes) : Counters :=
  counters.insert name ((counters.lookup name).getD 0 + 1)

def decrement (counters : Counters) (name : Bytes) : Counters :=
  match counters.lookup name with
  | some count =>
      if count - 1 = 0 then counters.erase name
      else counters.insert name (count - 1)
  | none => counters

end Counters

namespace GlobalRegistry

/-- A registry for a number of threads. -/
def new (numThreads : Nat) : GlobalRegistry where
  channelToThreads := ∅
  patternToThreads := ∅
  channelSubscriberCounts := ∅
  patternSubscriberCounts := ∅
  inboxes := List.replicate numThreads []

def addChannelInterest (r : GlobalRegistry) (channel : Bytes)
    (thread : ThreadId) : GlobalRegistry :=
  { r with channelToThreads := Interests.add r.channelToThreads channel thread }

def removeChannelInterest (r : GlobalRegistry) (channel : Bytes)
    (thread : ThreadId) : GlobalRegistry :=
  { r with
    channelToThreads := Interests.remove r.channelToThreads channel thread }

def addPatternInterest (r : GlobalRegistry) (pattern : Bytes)
    (thread : ThreadId) : GlobalRegistry :=
  { r with patternToThreads := Interests.add r.patternToThreads pattern thread }

def removePatternInterest (r : GlobalRegistry) (pattern : Bytes)
    (thread : ThreadId) : GlobalRegistry :=
  { r with
    patternToThreads := Interests.remove r.patternToThreads pattern thread }

def getChannelThreads (r : GlobalRegistry) (channel : Bytes) : List ThreadId :=
  (Interests.threads r.channelToThreads channel).items

def getAllPatternThreads (r : GlobalRegistry) : ListSet ThreadId :=
  ListSet.unions (r.patternToThreads.entries.map fun e => e.2)

/-- `try_send`: a message to a full inbox is lost. -/
def trySend (r : GlobalRegistry) (thread : ThreadId) (msg : BroadcastMsg) :
    GlobalRegistry :=
  match r.inboxes[thread]? with
  | some inbox =>
      if inbox.length < inboxCapacity then
        { r with inboxes := r.inboxes.set thread (inbox ++ [msg]) }
      else r
  | none => r

def broadcastToThreads (r : GlobalRegistry) (msg : BroadcastMsg)
    (threads : List ThreadId) : GlobalRegistry :=
  threads.foldl (fun r thread => r.trySend thread msg) r

def getAllChannels (r : GlobalRegistry) : List Bytes :=
  r.channelToThreads.keys

def getChannelSubscriberCount (r : GlobalRegistry) (channel : Bytes) : Nat :=
  (r.channelSubscriberCounts.lookup channel).getD 0

def incrementChannelSubscribers (r : GlobalRegistry) (channel : Bytes) :
    GlobalRegistry :=
  { r with
    channelSubscriberCounts :=
      Counters.increment r.channelSubscriberCounts channel }

def decrementChannelSubscribers (r : GlobalRegistry) (channel : Bytes) :
    GlobalRegistry :=
  { r with
    channelSubscriberCounts :=
      Counters.decrement r.channelSubscriberCounts channel }

def incrementPatternSubscribers (r : GlobalRegistry) (pattern : Bytes) :
    GlobalRegistry :=
  { r with
    patternSubscriberCounts :=
      Counters.increment r.patternSubscriberCounts pattern }

def decrementPatternSubscribers (r : GlobalRegistry) (pattern : Bytes) :
    GlobalRegistry :=
  { r with
    patternSubscriberCounts :=
      Counters.decrement r.patternSubscriberCounts pattern }

/-- The loop of `glob_match`: the pattern and the text from the current places
on, and the places to return to behind the last star. -/
def globLoop : Nat -> Bytes -> Bytes -> Option (Bytes × Bytes) -> Bool
  | 0, _, _, _ => false
  | _, pattern, [], _ => pattern.all (· == 42)
  | fuel + 1, pattern, t :: text, star =>
      let backtrack :=
        match star with
        | some (afterStar, _ :: rest) =>
            globLoop fuel afterStar rest (some (afterStar, rest))
        | _ => false
      match pattern with
      | p :: pattern' =>
          if p == t || p == 63 then globLoop fuel pattern' text star
          else if p == 42 then
            globLoop fuel pattern' (t :: text) (some (pattern', t :: text))
          else backtrack
      | [] => backtrack

/-- `glob_match` with `*` and `?`.  Between two places to return to every
round takes an octet of the text or of the pattern. -/
def globMatch (pattern text : Bytes) : Bool :=
  globLoop ((pattern.length + 1) * (text.length + 1) + text.length + 1) pattern
    text none

def getTotalPatternMatches (r : GlobalRegistry) (channel : Bytes) : Nat :=
  ((r.patternSubscriberCounts.entries.filter fun e =>
    globMatch e.1 channel).map fun e => e.2).sum

def getPatternCount (r : GlobalRegistry) : Nat :=
  r.patternToThreads.entries.length

theorem mem_getAllPatternThreads {r : GlobalRegistry} {thread : ThreadId} :
    thread ∈ r.getAllPatternThreads <->
      exists pattern, thread ∈ Interests.threads r.patternToThreads pattern := by
  unfold getAllPatternThreads
  rw [ListSet.mem_unions]
  constructor
  · rintro ⟨t, ht, hmem⟩
    rcases List.mem_map.mp ht with ⟨⟨pattern, entry⟩, hentry, rfl⟩
    refine ⟨pattern, ?_⟩
    rw [Interests.threads, AList.mem_lookup_iff.mpr hentry]
    exact hmem
  · rintro ⟨pattern, hmem⟩
    cases hentry : r.patternToThreads.lookup pattern with
    | none =>
        rw [Interests.threads, hentry] at hmem
        exact absurd hmem (ListSet.mem_empty thread)
    | some entry =>
        rw [Interests.threads, hentry] at hmem
        refine ⟨entry, List.mem_map.mpr ⟨⟨pattern, entry⟩, ?_, rfl⟩, hmem⟩
        exact AList.mem_lookup_iff.mp hentry

end GlobalRegistry

end FeoxServer
