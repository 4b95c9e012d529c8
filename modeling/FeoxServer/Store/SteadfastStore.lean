import FeoxServer.Store.FaultyStore
import FeoxServer.Store.ValueStore

/-!
# Stores in which a failed call changes nothing

A call may fail, and then every value is what it was.  A call that does not fail
changes the value of the key that it names and no other.  How a patch changes a
document is a parameter.
-/

namespace FeoxServer

open Foundation

namespace StoreCall

/-- The calls that leave all values as they are, and change at most a time to
live. -/
def Keeps : StoreCall -> Prop
  | getBytes _ | containsKey _ | updateTtl _ _ | getTtl _ | persist _
  | rangeQuery _ _ _ | stats => True
  | _ => False

def failed : (c : StoreCall) -> StoreAnswer c -> Bool
  | insert _ _, .error _ => true
  | insertBytes _ _, .error _ => true
  | insertWithTimestamp _ _, .error _ => true
  | insertBytesWithTimestamp _ _, .error _ => true
  | insertBytesWithTtlAndTimestamp _ _ _, .error _ => true
  | delete _, .error _ => true
  | atomicIncrement _ _, .error _ => true
  | _, _ => false

end StoreCall

structure SteadfastStore (patched : Bytes -> Bytes -> Option Bytes) (S : FeoxStore)
    (view : S.State -> Bytes -> Option Bytes) : Prop where
  getBytes : forall {s t key}, view s key = view t key ->
    (S.reply (.getBytes key) s).1 = (S.reply (.getBytes key) t).1
  rangeQuery : forall {s t start stop} limit,
    Set.EqOn (view s) (view t) { key | start <= key ∧ key <= stop } ->
      (S.reply (.rangeQuery start stop limit) s).1 =
        (S.reply (.rangeQuery start stop limit) t).1
  keeps : forall {c} s, c.Keeps -> view (S.reply c s).2 = view s
  others : forall {c key k} s, c.key? = some key -> k ≠ key ->
    view (S.reply c s).2 k = view s k
  failed : forall {c s}, c.failed (S.reply c s).1 = true ->
    view (S.reply c s).2 = view s
  compareAndSwap : forall s key expected newValue,
    view (S.reply (.compareAndSwap key expected newValue) s).2 = view s ∨
      view s key = some expected ∧
        view (S.reply (.compareAndSwap key expected newValue) s).2 =
          Function.update (view s) key (some newValue)
  jsonPatch : forall s key patch,
    view (S.reply (.jsonPatch key patch) s).2 = view s ∨
      exists doc doc', view s key = some doc ∧ patched doc patch = some doc' ∧
        view (S.reply (.jsonPatch key patch) s).2 =
          Function.update (view s) key (some doc')

theorem faulty_cases {S : FeoxStore} {may : StoreCall -> Bool} (c : StoreCall)
    (s : (faulty may S).State) :
    ((faulty may S).reply c s).2.1 = s.1 ∨
      ((faulty may S).reply c s).1 = (S.reply c s.1).1 ∧
        ((faulty may S).reply c s).2.1 = (S.reply c s.1).2 := by
  by_cases hmay : may c = true
  · cases hfault : s.2.head?.join.bind (c.refusal ·) with
    | some refused => exact Or.inl (by simp [faulty, hmay, hfault])
    | none => exact Or.inr (by simp [faulty, hmay, hfault])
  · exact Or.inr (by simp [faulty, hmay])

variable (patched : Bytes -> Bytes -> Option Bytes)

theorem SteadfastStore.insertFaulty {S : FeoxStore}
    {view : S.State -> Bytes -> Option Bytes} (hS : SteadfastStore patched S view) :
    SteadfastStore patched (faulty StoreCall.isInsert S) fun s => view s.1 where
  getBytes h := hS.getBytes h
  rangeQuery limit h := hS.rangeQuery limit h
  keeps := by
    intro c s hc
    cases c <;> first | exact hS.keeps s.1 hc | cases hc
  others := by
    intro c key k s hkey hk
    rcases @faulty_cases S StoreCall.isInsert c s with hstate | ⟨_, hstate⟩
    · rw [hstate]
    · rw [hstate]
      exact hS.others s.1 hkey hk
  failed := by
    intro c s hfailed
    rcases @faulty_cases S StoreCall.isInsert c s with hstate | ⟨hanswer, hstate⟩
    · rw [hstate]
    · rw [hanswer] at hfailed
      rw [hstate]
      exact hS.failed hfailed
  compareAndSwap s key expected newValue := hS.compareAndSwap s.1 key expected newValue
  jsonPatch s key patch := hS.jsonPatch s.1 key patch

namespace MapStore

def jsonPatch (entries : Entries) (key patch : Bytes) : Except FeoxError Unit × Entries :=
  match entries.lookup key with
  | some entry =>
      match patched entry.1 patch with
      | some doc => (.ok (), entries.insert key (doc, entry.2))
      | none => (.error invalidOperation, entries)
  | none => (.error keyNotFound, entries)

end MapStore

def patchStore : FeoxStore where
  State := MapStore.Entries
  reply
    | .jsonPatch key patch, entries => MapStore.jsonPatch patched entries key patch
    | c, entries => MapStore.reply c entries

namespace MapStore

theorem view_reply_eq {c : StoreCall} {key : Bytes} (h : c.key? = some key) {s : Entries}
    (hentry : (onEntry c (cell s key)).2.map Prod.fst = (cell s key).map Prod.fst) :
    view (reply c s).2 = view s := by
  rw [view_reply h, hentry]
  exact Function.update_eq_self key (view s)

theorem onEntry_keeps {c : StoreCall} (hc : c.Keeps) (entry : Entry) :
    (onEntry c entry).2.map Prod.fst = entry.map Prod.fst := by
  cases c with
  | updateTtl key seconds => cases entry <;> rfl
  | persist key => cases entry <;> rfl
  | getBytes key | containsKey key | getTtl key | rangeQuery start stop limit | stats => rfl
  | _ => cases hc

theorem onEntry_failed {c : StoreCall} {entry : Entry}
    (h : c.failed (onEntry c entry).1 = true) : (onEntry c entry).2 = entry := by
  cases c with
  | delete key =>
      cases entry with
      | none => rfl
      | some e => cases h
  | atomicIncrement key delta =>
      cases entry with
      | none => cases h
      | some e =>
          simp only [onEntry] at h ⊢
          split at h
          · cases h
          · rename_i hlength
            rw [if_neg hlength]
  | _ => cases h

theorem steadfastStore : SteadfastStore patched mapStore view where
  getBytes := by
    intro s t key h
    change (reply (.getBytes key) s).1 = (reply (.getBytes key) t).1
    simp only [reply, h]
    split <;> rfl
  rangeQuery := by
    intro s t start stop limit h
    change Except.ok ((inRange s start stop).take limit.toNat) =
      Except.ok ((inRange t start stop).take limit.toNat)
    rw [inRange_congr h]
  keeps := by
    intro c s hc
    cases hkey : c.key? with
    | some key => exact view_reply_eq hkey (onEntry_keeps hc _)
    | none =>
        rcases touches_of_key?_eq_none hkey with ⟨start, stop, limit, rfl⟩ | rfl
        · rfl
        · rfl
  others := by
    intro c key k s hkey hk
    exact (congrFun (view_reply hkey s) k).trans (Function.update_of_ne hk _ _)
  failed := by
    intro c s h
    cases hkey : c.key? with
    | some key =>
        change c.failed (reply c s).1 = true at h
        rw [(reply_eq_onEntry hkey s).1] at h
        exact view_reply_eq hkey (congrArg _ (onEntry_failed h))
    | none =>
        rcases touches_of_key?_eq_none hkey with ⟨start, stop, limit, rfl⟩ | rfl
        · rfl
        · rfl
  compareAndSwap := by
    intro s key expected newValue
    cases hview : view s key with
    | none =>
        refine Or.inl (view_reply_eq rfl ?_)
        rw [show cell s key = none from lookup_of_view_none hview]
        rfl
    | some value =>
        by_cases hequal : value = expected
        · subst hequal
          rcases behavesAsMap.compareAndSwap_equal newValue hview with ⟨s', hreply, hafter⟩
          refine Or.inr ⟨rfl, ?_⟩
          rw [hreply, hafter]
        · rcases behavesAsMap.compareAndSwap_differs newValue hview hequal with
            ⟨s', hreply, hafter⟩
          refine Or.inl ?_
          rw [hreply, hafter]
  jsonPatch s key patch := Or.inl rfl

theorem steadfastStore_patch : SteadfastStore patched (patchStore patched) view where
  getBytes h := (steadfastStore patched).getBytes h
  rangeQuery limit h := (steadfastStore patched).rangeQuery limit h
  keeps := by
    intro c s hc
    cases c <;> first | exact (steadfastStore patched).keeps s hc | cases hc
  others := by
    intro c key k s hkey hk
    cases c with
    | jsonPatch name patch =>
        cases hkey
        change view (jsonPatch patched s key patch).2 k = view s k
        unfold jsonPatch
        split
        · split
          · exact (congrFun (view_insert s key _) k).trans (Function.update_of_ne hk _ _)
          · rfl
        · rfl
    | _ => exact (steadfastStore patched).others s hkey hk
  failed := by
    intro c s h
    cases c <;> first | exact (steadfastStore patched).failed h | cases h
  compareAndSwap s key expected newValue :=
    (steadfastStore patched).compareAndSwap s key expected newValue
  jsonPatch := by
    intro s key patch
    change view (jsonPatch patched s key patch).2 = view s ∨ exists doc doc',
      view s key = some doc ∧ patched doc patch = some doc' ∧
        view (jsonPatch patched s key patch).2 = Function.update (view s) key (some doc')
    unfold jsonPatch view
    cases hlookup : s.lookup key with
    | none => exact Or.inl rfl
    | some entry =>
        simp only
        cases hpatched : patched entry.1 patch with
        | none => exact Or.inl rfl
        | some doc =>
            exact Or.inr ⟨entry.1, doc, rfl, hpatched, view_insert s key (doc, entry.2)⟩

end MapStore

end FeoxServer
