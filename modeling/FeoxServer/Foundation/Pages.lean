import Mathlib.Data.List.Basic
import Mathlib.Data.List.TakeDrop
import Mathlib.Order.Basic

/-!
# Reading a list page by page

A page shows the items that pass a test, up to a count, and looks at a window
of the list only.  When it is full, the item behind it is where the next page
begins, unless that item is a mark that ends the reading.
-/

namespace Foundation

namespace Pages

variable {α : Type} {p : α -> Bool} {mark : α -> Prop}

/-- The items of a page, and the list from the next page on.  Nothing is left
when the page is not full or its window ends. -/
def page (p : α -> Bool) : Nat -> Nat -> List α -> List α × List α
  | _, 0, _ => ([], [])
  | _, _ + 1, [] => ([], [])
  | 0, _ + 1, a :: items => ([], a :: items)
  | count + 1, window + 1, a :: items =>
      if p a then
        let rest := page p count window items
        (a :: rest.1, rest.2)
      else page p (count + 1) window items

theorem page_nil (count window : Nat) :
    page p count window ([] : List α) = ([], []) := by
  cases window <;> cases count <;> rfl

theorem page_zero (window : Nat) (items : List α) :
    page p 0 (window + 1) items = ([], items) := by
  cases items <;> rfl

theorem page_pass {a : α} (h : p a = true) (count window : Nat)
    (items : List α) :
    page p (count + 1) (window + 1) (a :: items) =
      (a :: (page p count window items).1, (page p count window items).2) := by
  rw [page, if_pos h]

theorem page_skip {a : α} (h : p a = false) (count window : Nat)
    (items : List α) :
    page p (count + 1) (window + 1) (a :: items) =
      page p (count + 1) window items := by
  rw [page, if_neg (by simp [h])]

/-- Reading goes through `items` and shows `found`. -/
inductive Reads (p : α -> Bool) (mark : α -> Prop) (count window : Nat) :
    List α -> List α -> Prop
  | stop {items : List α} :
      (forall a rest, (page p count window items).2 = a :: rest -> mark a) ->
        Reads p mark count window items (page p count window items).1
  | next {items : List α} {a : α} {rest found : List α} :
      (page p count window items).2 = a :: rest -> ¬ mark a ->
        Reads p mark count window (a :: rest) found ->
          Reads p mark count window items
            ((page p count window items).1 ++ found)

theorem Reads.unique {count window : Nat} {items found found' : List α}
    (h : Reads p mark count window items found)
    (h' : Reads p mark count window items found') : found = found' := by
  induction h generalizing found' with
  | stop hstop =>
      cases h' with
      | stop _ => rfl
      | next hrest hmark _ => exact absurd (hstop _ _ hrest) hmark
  | next hrest hmark _ ih =>
      cases h' with
      | stop hstop => exact absurd (hstop _ _ hrest) hmark
      | next hrest' _ hmore =>
          rw [hrest] at hrest'
          injection hrest' with ha hitems
          subst ha hitems
          rw [ih hmore]

theorem page_sublist (count window : Nat) (items : List α) :
    List.Sublist
      ((page p count window items).1 ++ (page p count window items).2) items := by
  induction items generalizing count window with
  | nil =>
      rw [page_nil]
      exact List.Sublist.refl _
  | cons a items ih =>
      cases window with
      | zero =>
          cases count <;> exact List.nil_sublist _
      | succ window =>
          cases count with
          | zero =>
              rw [page_zero]
              exact List.Sublist.refl _
          | succ count =>
              cases hp : p a with
              | true =>
                  rw [page_pass hp]
                  exact (ih count window).cons_cons a
              | false =>
                  rw [page_skip hp]
                  exact (ih (count + 1) window).cons a

theorem Reads.sublist {count window : Nat} {items found : List α}
    (h : Reads p mark count window items found) : found.Sublist items := by
  induction h with
  | @stop items _ =>
      exact (List.sublist_append_left _ _).trans (page_sublist count window items)
  | @next items a rest found hrest _ _ ih =>
      have hpage := page_sublist (p := p) count window items
      rw [hrest] at hpage
      exact (List.Sublist.append (List.Sublist.refl _) ih).trans hpage

theorem length_page_lt (count window : Nat) {items : List α}
    (h : items ≠ []) : (page p (count + 1) window items).2.length < items.length := by
  induction items generalizing window with
  | nil => exact absurd rfl h
  | cons a items ih =>
      cases window with
      | zero => exact Nat.zero_lt_succ _
      | succ window =>
          cases hp : p a with
          | true =>
              rw [page_pass hp]
              have hlength := (page_sublist (p := p) count window items).length_le
              rw [List.length_append] at hlength
              exact Nat.lt_succ_of_le (Nat.le_of_add_left_le hlength)
          | false =>
              rw [page_skip hp]
              by_cases hitems : items = []
              · rw [hitems, page_nil]
                exact Nat.zero_lt_succ _
              · exact Nat.lt_trans (ih window hitems) (Nat.lt_succ_self _)

theorem reads_exists [DecidablePred mark] {count : Nat} (h : 0 < count)
    (window : Nat) (items : List α) :
    exists found, Reads p mark count window items found := by
  cases count with
  | zero => exact absurd h (Nat.lt_irrefl 0)
  | succ count =>
      induction hn : items.length using Nat.strongRecOn generalizing items with
      | ind n ih =>
          cases hrest : (page p (count + 1) window items).2 with
          | nil => exact ⟨_, Reads.stop fun a rest hcons => by rw [hrest] at hcons; cases hcons⟩
          | cons a rest =>
              by_cases hmark : mark a
              · refine ⟨_, Reads.stop fun b rest' hcons => ?_⟩
                rw [hrest] at hcons
                injection hcons with hab _
                exact hab ▸ hmark
              · have hitems : items ≠ [] := by
                  intro hnil
                  rw [hnil, page_nil] at hrest
                  cases hrest
                have hlength := length_page_lt (p := p) count window hitems
                rw [hrest, hn] at hlength
                rcases ih _ hlength (a :: rest) rfl with ⟨found, hfound⟩
                exact ⟨_, Reads.next hrest hmark hfound⟩

theorem Reads.of_page {count window : Nat} {items shown : List α}
    (h : page p count window items = (shown, [])) :
    Reads p mark count window items shown := by
  have hstop := @Reads.stop α p mark count window items fun a rest hrest => by
    rw [h] at hrest
    cases hrest
  rw [h] at hstop
  exact hstop

theorem reads_nil (count window : Nat) :
    Reads p mark count window ([] : List α) [] :=
  Reads.of_page (page_nil count window)

theorem Reads.of_window_zero {count : Nat} {items found : List α}
    (h : Reads p mark count 0 items found) : found = [] := by
  cases h with
  | stop _ => cases count <;> rfl
  | next hrest _ _ => cases count <;> cases hrest

/-!
# Pages that show everything
-/

/-- Where everything passes and the window is larger than the count, a page is
a front of the list. -/
theorem page_all (count : Nat) (items : List α) :
    page (fun _ => true) count (count + 1) items =
      (items.take count, items.drop count) := by
  induction items generalizing count with
  | nil =>
      rw [page_nil, List.take_nil, List.drop_nil]
  | cons a items ih =>
      cases count with
      | zero => rfl
      | succ count =>
          rw [page_pass rfl, ih]
          rfl

theorem Reads.of_zero {items found : List α}
    (h : Reads (fun _ => true) mark 0 1 items found) (hitems : items ≠ []) :
    found ≠ items := by
  induction h with
  | @stop items _ =>
      rw [page_all, List.take_zero]
      exact hitems.symm
  | @next items a rest found hrest _ _ ih =>
      rw [page_all] at hrest ⊢
      have hsame : items = a :: rest := hrest
      rw [hsame]
      exact ih (List.cons_ne_nil a rest)

/-- All is read if and only if the mark never is the first item of a later
page. -/
theorem Reads.all_iff {count : Nat} {items found : List α}
    (h : Reads (fun _ => true) mark count (count + 1) items found) :
    found = items <->
      forall i a, 0 < i -> items[i * count]? = some a -> ¬ mark a := by
  induction h with
  | @stop items hstop =>
      simp only [page_all] at hstop ⊢
      cases hrest : items.drop count with
      | nil =>
          have hlength := List.drop_eq_nil_iff.mp hrest
          refine iff_of_true (List.take_of_length_le hlength) ?_
          intro i a hi ha _
          have hle : count <= i * count := Nat.le_mul_of_pos_left count hi
          rw [List.getElem?_eq_none (Nat.le_trans hlength hle)] at ha
          cases ha
      | cons a rest =>
          refine iff_of_false ?_ ?_
          · intro hall
            have hnil : items.drop count = [] :=
              List.drop_eq_nil_iff.mpr (List.take_eq_self_iff items |>.mp hall)
            rw [hrest] at hnil
            cases hnil
          · intro hnever
            refine hnever 1 a Nat.one_pos ?_ (hstop a rest hrest)
            rw [Nat.one_mul, ← Nat.add_zero count, ← List.getElem?_drop, hrest]
            rfl
  | @next items a rest found hrest hmark _ ih =>
      simp only [page_all] at hrest ⊢
      have hsplit : items.take count ++ found = items <-> found = a :: rest := by
        rw [← hrest]
        constructor
        · intro hall
          exact List.append_cancel_left (hall.trans (List.take_append_drop count items).symm)
        · intro hfound
          rw [hfound, List.take_append_drop]
      have hlater : forall i, (a :: rest)[i * count]? = items[(i + 1) * count]? := by
        intro i
        rw [← hrest, List.getElem?_drop, Nat.succ_mul, Nat.add_comm]
      rw [hsplit, ih]
      constructor
      · intro hnever i b hi hb
        cases i with
        | zero => exact absurd hi (Nat.lt_irrefl 0)
        | succ i =>
            rw [← hlater] at hb
            cases i with
            | zero =>
                rw [Nat.zero_mul] at hb
                injection hb with hab
                exact hab ▸ hmark
            | succ i => exact hnever (i + 1) b (Nat.succ_pos i) hb
      · intro hnever i b _ hb
        rw [hlater] at hb
        exact hnever (i + 1) b (Nat.succ_pos i) hb

theorem reads_all_iff [DecidablePred mark] {count : Nat} (h : 0 < count)
    (items : List α) :
    Reads (fun _ => true) mark count (count + 1) items items <->
      forall i a, 0 < i -> items[i * count]? = some a -> ¬ mark a := by
  rcases @reads_exists α (fun _ => true) mark _ count h (count + 1) items with
    ⟨found, hfound⟩
  rw [← hfound.all_iff]
  constructor
  · exact hfound.unique
  · intro heq
    rw [heq] at hfound
    exact hfound

/-!
# What is shown
-/

def Full (p : α -> Bool) (count : Nat) (before : List α) : Prop :=
  before.countP p = count ∧ forall a, before.getLast? = some a -> p a = true

theorem full_zero {before : List α} : Full p 0 before <-> before = [] := by
  constructor
  · intro h
    cases hlast : before.getLast? with
    | none => exact List.getLast?_eq_none_iff.mp hlast
    | some a =>
        have hnone := List.countP_eq_zero.mp h.1 a (List.mem_of_getLast? hlast)
        exact absurd (h.2 a hlast) hnone
  · intro hnil
    subst hnil
    exact ⟨rfl, fun a ha => by cases ha⟩

theorem full_pass {a : α} (h : p a = true) {count : Nat} {before : List α} :
    Full p (count + 1) (a :: before) <-> Full p count before := by
  unfold Full
  rw [List.countP_cons_of_pos h, Nat.add_right_cancel_iff]
  cases before with
  | nil =>
      apply and_congr_right
      intro _
      constructor
      · intro _ b hb
        cases hb
      · intro _ b hb
        injection hb with hab
        exact hab ▸ h
  | cons b before => rw [List.getLast?_cons_cons]

theorem full_skip {a : α} (h : p a = false) {count : Nat} {before : List α} :
    Full p (count + 1) (a :: before) <-> Full p (count + 1) before := by
  unfold Full
  rw [List.countP_cons_of_neg (by simp [h])]
  cases before with
  | nil =>
      constructor <;>
        exact fun hfull => absurd hfull.1 (Nat.succ_ne_zero count).symm
  | cons b before => rw [List.getLast?_cons_cons]

theorem not_full_nil (count : Nat) : ¬ Full p (count + 1) [] :=
  fun h => absurd h.1 (Nat.succ_ne_zero count).symm

/-- There is a next page if and only if a full page ends in the window and
something comes behind it. -/
theorem page_rest_iff {count window : Nat} {items rest : List α} {a : α} :
    (page p count window items).2 = a :: rest <->
      exists before, items = before ++ a :: rest ∧ Full p count before ∧
        before.length < window := by
  induction items generalizing count window with
  | nil =>
      rw [page_nil]
      constructor
      · intro h
        cases h
      · intro h
        rcases h with ⟨before, hitems, _, _⟩
        cases before <;> cases hitems
  | cons b items ih =>
      cases window with
      | zero =>
          constructor
          · intro h
            cases count <;> cases h
          · intro h
            rcases h with ⟨before, _, _, hlength⟩
            exact absurd hlength (Nat.not_lt_zero _)
      | succ window =>
          cases count with
          | zero =>
              rw [page_zero]
              constructor
              · intro h
                exact ⟨[], h, full_zero.mpr rfl, Nat.succ_pos window⟩
              · intro h
                rcases h with ⟨before, hitems, hfull, _⟩
                rw [full_zero.mp hfull] at hitems
                exact hitems
          | succ count =>
              -- The first item belongs to the page, whether it is shown or not.
              have hcons : forall c, (forall before,
                  Full p (count + 1) (b :: before) <-> Full p c before) ->
                  ((page p c window items).2 = a :: rest <->
                    exists before, b :: items = before ++ a :: rest ∧
                      Full p (count + 1) before ∧ before.length < window + 1) := by
                intro c hc
                rw [ih]
                constructor
                · intro h
                  rcases h with ⟨before, hitems, hfull, hlength⟩
                  exact ⟨b :: before, congrArg (b :: ·) hitems,
                    (hc before).mpr hfull, Nat.succ_lt_succ hlength⟩
                · intro h
                  rcases h with ⟨before, hitems, hfull, hlength⟩
                  cases before with
                  | nil => exact absurd hfull (not_full_nil count)
                  | cons b' before =>
                      injection hitems with hb hitems
                      subst hb
                      exact ⟨before, hitems, (hc before).mp hfull,
                        Nat.lt_of_succ_lt_succ hlength⟩
              cases hp : p b with
              | true =>
                  rw [page_pass hp]
                  exact hcons count fun before => full_pass hp
              | false =>
                  rw [page_skip hp]
                  exact hcons (count + 1) fun before => full_skip hp

/-- A full page that ends in the window shows what passes, and all that is behind
it is left. -/
theorem page_full {count window : Nat} {before : List α} (h : Full p count before)
    (hlength : before.length < window) (rest : List α) :
    page p count window (before ++ rest) = (before.filter p, rest) := by
  induction before generalizing count window with
  | nil =>
      cases window with
      | zero => exact absurd hlength (Nat.not_lt_zero _)
      | succ window =>
          have hzero : count = 0 := h.1.symm
          rw [hzero, List.nil_append, page_zero]
          rfl
  | cons a before ih =>
      cases window with
      | zero => exact absurd hlength (Nat.not_lt_zero _)
      | succ window =>
          have hlater := Nat.lt_of_succ_lt_succ hlength
          cases count with
          | zero => cases full_zero.mp h
          | succ count =>
              rw [List.cons_append]
              cases hp : p a with
              | true =>
                  rw [page_pass hp, ih ((full_pass hp).mp h) hlater,
                    List.filter_cons_of_pos hp]
              | false =>
                  rw [page_skip hp, ih ((full_skip hp).mp h) hlater,
                    List.filter_cons_of_neg (by simp [hp])]

theorem length_page_le (count window : Nat) (items : List α) :
    (page p count window items).1.length <= count := by
  induction items generalizing count window with
  | nil =>
      rw [page_nil]
      exact Nat.zero_le count
  | cons a items ih =>
      cases window with
      | zero => cases count <;> exact Nat.zero_le _
      | succ window =>
          cases count with
          | zero =>
              rw [page_zero]
              exact Nat.le_refl 0
          | succ count =>
              cases hp : p a with
              | true =>
                  rw [page_pass hp]
                  exact Nat.succ_le_succ (ih count window)
              | false =>
                  rw [page_skip hp]
                  exact ih (count + 1) window

/-- While a page has room it shows an item that passes if and only if the item
lies in the window. -/
theorem prefix_page_iff {count window : Nat} {front rest : List α} {b : α}
    (hroom : front.countP p < count) (hb : p b = true) :
    front.filter p ++ [b] <+: (page p count window (front ++ b :: rest)).1 <->
      front.length < window := by
  induction front generalizing count window with
  | nil =>
      cases count with
      | zero => exact absurd hroom (Nat.not_lt_zero _)
      | succ count =>
          cases window with
          | zero => simp [page]
          | succ window => simp [page_pass hb]
  | cons a front ih =>
      cases window with
      | zero =>
          refine iff_of_false ?_ (Nat.not_lt_zero _)
          cases count <;> simp [page]
      | succ window =>
          cases count with
          | zero => exact absurd hroom (Nat.not_lt_zero _)
          | succ count =>
              rw [List.cons_append, List.length_cons, Nat.add_lt_add_iff_right]
              cases hp : p a with
              | true =>
                  rw [List.countP_cons_of_pos hp] at hroom
                  rw [page_pass hp, List.filter_cons_of_pos hp, List.cons_append,
                    List.cons_prefix_cons, and_iff_right rfl]
                  exact ih (Nat.lt_of_succ_lt_succ hroom)
              | false =>
                  have hneg : ¬ p a = true := by simp [hp]
                  rw [List.countP_cons_of_neg hneg] at hroom
                  rw [page_skip hp, List.filter_cons_of_neg hneg]
                  exact ih hroom

theorem page_prefix (count window : Nat) (items : List α) :
    (page p count window items).1 <+: items.filter p := by
  induction items generalizing count window with
  | nil =>
      rw [page_nil]
      exact List.nil_prefix
  | cons a items ih =>
      cases window with
      | zero => cases count <;> exact List.nil_prefix
      | succ window =>
          cases count with
          | zero =>
              rw [page_zero]
              exact List.nil_prefix
          | succ count =>
              cases hp : p a with
              | true =>
                  rw [page_pass hp, List.filter_cons_of_pos hp]
                  exact List.cons_prefix_cons.mpr ⟨rfl, ih count window⟩
              | false =>
                  rw [page_skip hp, List.filter_cons_of_neg (by simp [hp])]
                  exact ih (count + 1) window

theorem Reads.isPrefix {count window : Nat} {items found : List α}
    (h : Reads p mark count window items found) : found <+: items.filter p := by
  induction h with
  | stop _ => exact page_prefix _ _ _
  | next hrest _ _ ih =>
      rcases page_rest_iff.mp hrest with ⟨before, hitems, hfull, hlength⟩
      subst hitems
      rw [page_full hfull hlength, List.filter_append]
      exact (List.prefix_append_right_inj _).mpr ih

/-!
# How far reading gets
-/

/-- A page may begin here: so many items that pass are before it as fill pages,
and the last item before it is one of them. -/
structure Turn (p : α -> Bool) (count : Nat) (before : List α) : Prop where
  full : count ∣ before.countP p
  last : forall a, before.getLast? = some a -> p a = true

/-- From wherever a page may begin, the items that pass and belong on the page lie
in the window; where one more is to come behind a full page, the page ends in
the window, and what follows it is not the mark. -/
structure Dense (p : α -> Bool) (mark : α -> Prop) (count window : Nat)
    (items : List α) : Prop where
  within : forall before page a rest, items = before ++ (page ++ a :: rest) ->
    Turn p count before -> page.countP p < count -> p a = true ->
      page.length < window
  goesOn : forall before page a rest b, items = before ++ (page ++ a :: rest) ->
    Turn p count before -> Full p count page -> b ∈ a :: rest -> p b = true ->
      page.length < window ∧ ¬ mark a

theorem turn_nil (count : Nat) : Turn p count [] where
  full := Nat.dvd_zero count
  last := nofun

theorem Turn.eq_nil {count : Nat} {before : List α} (h : Turn p count before)
    (hfew : before.countP p < count) : before = [] := by
  have hzero := Nat.eq_zero_of_dvd_of_lt h.full hfew
  cases hlast : before.getLast? with
  | none => exact List.getLast?_eq_none_iff.mp hlast
  | some a =>
      have hnone := List.countP_eq_zero.mp hzero a (List.mem_of_getLast? hlast)
      exact absurd (h.last a hlast) hnone

theorem Full.countP_lt {count : Nat} {front rest : List α} {a : α}
    (h : Full p count (front ++ a :: rest)) : front.countP p < count := by
  have hlast : exists b, (front ++ a :: rest).getLast? = some b ∧ b ∈ a :: rest := by
    cases hrest : (a :: rest).getLast? with
    | none => cases List.getLast?_eq_none_iff.mp hrest
    | some b =>
        refine ⟨b, ?_, List.mem_of_getLast? hrest⟩
        rw [List.getLast?_append, hrest]
        rfl
  rcases hlast with ⟨b, hb, hmem⟩
  have hpos := List.countP_pos_iff.mpr ⟨b, hmem, h.2 b hb⟩
  have hcount := h.1
  rw [List.countP_append] at hcount
  omega

theorem exists_full {count : Nat} {items : List α} (hpos : 0 < count)
    (h : count <= items.countP p) :
    exists before rest, items = before ++ rest ∧ Full p count before := by
  induction items generalizing count with
  | nil => exact absurd (Nat.lt_of_lt_of_le hpos h) (Nat.lt_irrefl 0)
  | cons a items ih =>
      cases count with
      | zero => exact absurd hpos (Nat.lt_irrefl 0)
      | succ count =>
          cases hp : p a with
          | true =>
              rw [List.countP_cons_of_pos hp] at h
              rcases Nat.eq_zero_or_pos count with hzero | hmore
              · subst hzero
                exact ⟨[a], items, rfl, (full_pass hp).mpr (full_zero.mpr rfl)⟩
              · rcases ih hmore (Nat.le_of_succ_le_succ h) with
                  ⟨before, rest, hitems, hfull⟩
                exact ⟨a :: before, rest, congrArg (a :: ·) hitems,
                  (full_pass hp).mpr hfull⟩
          | false =>
              rw [List.countP_cons_of_neg (by simp [hp])] at h
              rcases ih (Nat.succ_pos count) h with ⟨before, rest, hitems, hfull⟩
              exact ⟨a :: before, rest, congrArg (a :: ·) hitems,
                (full_skip hp).mpr hfull⟩

theorem Full.unique {count : Nat} {before before' rest rest' : List α}
    (h : Full p count before) (h' : Full p count before')
    (heq : before ++ rest = before' ++ rest') : before = before' := by
  rcases List.append_eq_append_iff.mp heq with ⟨more, hmore, _⟩ | ⟨more, hmore, _⟩
  · cases more with
    | nil => rw [hmore, List.append_nil]
    | cons a more =>
        rw [hmore] at h'
        exact absurd h.1 (Nat.ne_of_lt h'.countP_lt)
  · cases more with
    | nil => rw [hmore, List.append_nil]
    | cons a more =>
        rw [hmore] at h
        exact absurd h'.1 (Nat.ne_of_lt h.countP_lt)

theorem Dense.of_prefix {count window : Nat} {front items : List α}
    (h : Dense p mark count window items) (hfront : front <+: items) :
    Dense p mark count window front := by
  rcases hfront with ⟨more, hmore⟩
  subst hmore
  constructor
  · intro before page a rest hsplit
    refine h.within before page a (rest ++ more) ?_
    rw [hsplit]
    simp
  · intro before page a rest b hsplit hturn hfull hb
    refine h.goesOn before page a (rest ++ more) b ?_ hturn hfull ?_
    · rw [hsplit]
      simp
    · exact List.mem_append_left more hb

theorem dense_iff {count window : Nat} {items : List α} :
    Dense p mark count window items <->
      forall front b rest, items = front ++ b :: rest -> p b = true ->
        Dense p mark count window (front ++ [b]) := by
  constructor
  · intro h front b rest hitems _
    refine h.of_prefix ⟨rest, ?_⟩
    rw [hitems, List.append_assoc]
    rfl
  · intro h
    constructor
    · intro before page a rest hitems hturn hcount ha
      have hfront := h (before ++ page) a rest (by rw [hitems, List.append_assoc]) ha
      exact hfront.within before page a [] (List.append_assoc _ _ _) hturn hcount ha
    · intro before page a rest b hitems hturn hfull hb hpass
      rcases List.append_of_mem hb with ⟨gap, behind, hgap⟩
      have hfront := h (before ++ (page ++ gap)) b behind (by
        rw [hitems, hgap]
        simp) hpass
      rcases List.append_eq_cons_iff.mp hgap.symm with ⟨hnil, hcons⟩ | ⟨gap', hgap', hrest⟩
      · injection hcons with hab _
        subst hnil hab
        exact hfront.goesOn before page b [] b (by simp) hturn hfull
          List.mem_cons_self hpass
      · refine hfront.goesOn before page a (gap' ++ [b]) b ?_ hturn hfull ?_ hpass
        · rw [hgap']
          simp
        · simp

theorem dense_first_iff {count window : Nat} {front : List α} {b : α}
    (hfew : front.countP p < count) (hb : p b = true) :
    Dense p mark count window (front ++ [b]) <-> front.length < window := by
  have hsplit : forall {before page rest : List α} {a : α},
      front ++ [b] = before ++ (page ++ a :: rest) ->
        before ++ page <+: front := by
    intro before page rest a h
    have hlength : (before ++ page).length <= front.length := by
      have htotal := congrArg List.length h
      simp only [List.length_append, List.length_cons, List.length_nil] at htotal ⊢
      omega
    refine List.prefix_of_prefix_length_le ⟨a :: rest, ?_⟩ (List.prefix_append front [b])
      hlength
    rw [h, List.append_assoc]
  constructor
  · intro h
    exact h.within [] front b [] rfl (turn_nil count) hfew hb
  · intro hlength
    constructor
    · intro before page a rest h _ _ _
      have hle := (hsplit h).length_le
      rw [List.length_append] at hle
      omega
    · intro before page a rest _ h _ hfull _ _
      have hle := List.Sublist.countP_le (p := p) (hsplit h).sublist
      rw [List.countP_append, hfull.1] at hle
      omega

theorem Turn.append {count : Nat} {front before : List α} (hfull : Full p count front)
    (h : Turn p count before) : Turn p count (front ++ before) where
  full := by
    rw [List.countP_append, hfull.1]
    exact Nat.dvd_add (Nat.dvd_refl count) h.full
  last := by
    intro c hc
    rw [List.getLast?_append] at hc
    cases hlast : before.getLast? with
    | none =>
        rw [hlast] at hc
        exact hfull.2 c hc
    | some d =>
        rw [hlast] at hc
        injection hc with hcd
        exact hcd ▸ h.last d hlast

/-- A page begins at the front of the list, or behind the first full page. -/
theorem Turn.begins {count : Nat} {front before behind items : List α}
    (hfull : Full p count front) (h : Turn p count before)
    (hsplit : front ++ items = before ++ behind) :
    before = [] ∨ exists before', before = front ++ before' ∧
      Turn p count before' ∧ items = before' ++ behind := by
  rcases List.append_eq_append_iff.mp hsplit with
    ⟨before', hbefore, hrest⟩ | ⟨more, hmore, _⟩
  · subst hbefore
    have hturn : Turn p count before' := by
      constructor
      · have hdvd := h.full
        rw [List.countP_append, hfull.1] at hdvd
        exact (Nat.dvd_add_right (Nat.dvd_refl count)).mp hdvd
      · intro c hc
        apply h.last c
        rw [List.getLast?_append, hc]
        rfl
    exact Or.inr ⟨before', rfl, hturn, hrest⟩
  · cases more with
    | nil =>
        rw [List.append_nil] at hmore
        subst hmore
        exact Or.inr ⟨[], (List.append_nil _).symm, turn_nil count,
          List.append_cancel_left hsplit⟩
    | cons c more =>
        rw [hmore] at hfull
        exact Or.inl (h.eq_nil hfull.countP_lt)

theorem dense_append {count window : Nat} {front rest : List α}
    {a b : α} (hfull : Full p count front) (hb : b ∈ a :: rest) (hpass : p b = true) :
    Dense p mark count window (front ++ a :: rest) <->
      (front.length < window ∧ ¬ mark a) ∧ Dense p mark count window (a :: rest) := by
  constructor
  · intro h
    refine ⟨h.goesOn [] front a rest b rfl (turn_nil count) hfull hb hpass, ?_, ?_⟩
    · intro before page c rest' hsplit hbefore
      refine h.within (front ++ before) page c rest' ?_ (hbefore.append hfull)
      rw [hsplit, List.append_assoc]
    · intro before page c rest' d hsplit hbefore
      refine h.goesOn (front ++ before) page c rest' d ?_ (hbefore.append hfull)
      rw [hsplit, List.append_assoc]
  · rintro ⟨⟨hlength, hmark⟩, h⟩
    constructor
    · intro before page c rest' hsplit hbefore hcount hc
      rcases hbefore.begins hfull hsplit with hnil | ⟨before', _, hbefore', hrest⟩
      · -- A page that is not full is shorter than the full one.
        subst hnil
        rw [List.nil_append] at hsplit
        rcases List.append_eq_append_iff.mp hsplit with ⟨more, hmore, _⟩ | ⟨more, hmore, _⟩
        · rw [hmore, List.countP_append, hfull.1] at hcount
          exact absurd hcount (Nat.not_lt.mpr (Nat.le_add_right _ _))
        · rw [hmore, List.length_append] at hlength
          exact Nat.lt_of_le_of_lt (Nat.le_add_right _ _) hlength
      · exact h.within before' page c rest' hrest hbefore' hcount hc
    · intro before page c rest' d hsplit hbefore hpage hd hdpass
      rcases hbefore.begins hfull hsplit with hnil | ⟨before', _, hbefore', hrest⟩
      · subst hnil
        have hsame := hfull.unique hpage hsplit
        subst hsame
        have hcons := List.append_cancel_left hsplit
        injection hcons with hac _
        exact hac ▸ ⟨hlength, hmark⟩
      · exact h.goesOn before' page c rest' d hrest hbefore' hpage hd hdpass

theorem dense_behind {count window : Nat} {front tail : List α}
    {b : α} (hfull : Full p count front) (hpass : p b = true) {a : α} {rest : List α}
    (htail : tail ++ [b] = a :: rest) :
    Dense p mark count window (front ++ tail ++ [b]) <->
      (front.length < window ∧ ¬ mark a) ∧
        Dense p mark count window (tail ++ [b]) := by
  have hb : b ∈ a :: rest := htail ▸ List.mem_append_right tail List.mem_cons_self
  rw [List.append_assoc, htail]
  exact dense_append hfull hb hpass

theorem Reads.shows_iff {count window : Nat} (hpos : 0 < count) {items found : List α}
    (h : Reads p mark count window items found) {front rest : List α} {b : α}
    (hitems : items = front ++ b :: rest) (hb : p b = true) :
    front.filter p ++ [b] <+: found <->
      Dense p mark count window (front ++ [b]) := by
  induction h generalizing front rest with
  | @stop items hstop =>
      subst hitems
      by_cases hfew : front.countP p < count
      · rw [prefix_page_iff hfew hb, dense_first_iff hfew hb]
      · rcases exists_full hpos (Nat.not_lt.mp hfew) with ⟨page0, tail, hfront, hfull⟩
        subst hfront
        refine iff_of_false ?_ ?_
        · intro hprefix
          have hle := Nat.le_trans hprefix.length_le (length_page_le _ _ _)
          rw [List.length_append, ← List.countP_eq_length_filter] at hle
          exact hfew hle
        · intro hdense
          cases hcons : tail ++ [b] with
          | nil => exact absurd hcons (by simp)
          | cons a more =>
              rcases (dense_behind hfull hb hcons).mp hdense with
                ⟨⟨hlength, hmark⟩, _⟩
              refine hmark (hstop a (more ++ rest) ?_)
              rw [List.append_assoc, page_full hfull hlength, ← List.cons_append, ← hcons]
              simp
  | @next items a rest0 found hrest hmark _ ih =>
      subst hitems
      rcases page_rest_iff.mp hrest with ⟨page0, hsplit, hfull, hlength⟩
      have hshown : (page p count window (front ++ b :: rest)).1 = page0.filter p := by
        rw [hsplit, page_full hfull hlength]
      by_cases hfew : front.countP p < count
      · -- The item is on the page that has just been read.
        have hshort : front.length < window := by
          rcases List.append_eq_append_iff.mp hsplit with ⟨more, hmore, _⟩ | ⟨more, hmore, _⟩
          · rw [hmore, List.length_append] at hlength
            exact Nat.lt_of_le_of_lt (Nat.le_add_right _ _) hlength
          · rw [hmore, List.countP_append, hfull.1] at hfew
            exact absurd hfew (Nat.not_lt.mpr (Nat.le_add_right _ _))
        rw [dense_first_iff hfew hb]
        refine iff_of_true ?_ hshort
        exact ((prefix_page_iff hfew hb).mpr hshort).trans (List.prefix_append _ _)
      · rcases exists_full hpos (Nat.not_lt.mp hfew) with ⟨page1, tail, hfront, hfull1⟩
        subst hfront
        rw [List.append_assoc] at hsplit
        obtain rfl := hfull1.unique hfull hsplit
        have hlater := List.append_cancel_left hsplit
        rw [hshown, List.filter_append, List.append_assoc,
          List.prefix_append_right_inj, ih hlater.symm]
        cases tail with
        | nil =>
            injection hlater with hba _
            have htail : [] ++ [b] = b :: [] := rfl
            rw [dense_behind hfull hb htail, and_iff_right ⟨hlength, hba ▸ hmark⟩]
        | cons c tail =>
            injection hlater with hca _
            have htail : c :: tail ++ [b] = c :: (tail ++ [b]) := rfl
            rw [dense_behind hfull hb htail, and_iff_right ⟨hlength, hca ▸ hmark⟩]

theorem Reads.filter_isPrefix {count window : Nat} (hpos : 0 < count)
    {front rest found : List α}
    (h : Reads p mark count window (front ++ rest) found)
    (hdense : Dense p mark count window front) : front.filter p <+: found := by
  cases hlast : (front.filter p).getLast? with
  | none =>
      rw [List.getLast?_eq_none_iff.mp hlast]
      exact List.nil_prefix
  | some b =>
      -- The last item of the front that passes is shown.
      rcases List.getLast?_eq_some_iff.mp hlast with ⟨shown, hshown⟩
      rcases List.filter_eq_append_iff.mp hshown with
        ⟨before, behind, hsplit, hbefore, hbehind⟩
      rcases List.filter_eq_cons_iff.mp hbehind with
        ⟨gap, behind', hgap, hnone, hb, _⟩
      have hitems : front ++ rest = (before ++ gap) ++ b :: (behind' ++ rest) := by
        rw [hsplit, hgap]
        simp
      have hupto : Dense p mark count window (before ++ gap ++ [b]) :=
        hdense.of_prefix ⟨behind', by rw [hsplit, hgap]; simp⟩
      have hprefix := (h.shows_iff hpos hitems hb).mpr hupto
      rw [List.filter_append, List.filter_eq_nil_iff.mpr hnone, List.append_nil,
        hbefore] at hprefix
      rw [hshown]
      exact hprefix

theorem Reads.isPrefix_filter {count window : Nat} (hpos : 0 < count)
    {front rest found : List α}
    (h : Reads p mark count window (front ++ rest) found)
    (hbeyond : forall gap b more, rest = gap ++ b :: more -> p b = true ->
      ¬ Dense p mark count window (front ++ gap ++ [b])) :
    found <+: front.filter p := by
  have hfront : front.filter p <+: (front ++ rest).filter p := by
    rw [List.filter_append]
    exact List.prefix_append _ _
  rcases List.prefix_or_prefix_of_prefix h.isPrefix hfront with hless | hmore
  · exact hless
  · rcases hmore with ⟨extra, hextra⟩
    cases extra with
    | nil =>
        have hall : front.filter p = found := (List.append_nil _).symm.trans hextra
        exact hall ▸ List.prefix_rfl
    | cons b extra =>
        -- The first item that is shown behind the front would be reached.
        have hpass := h.isPrefix
        rw [← hextra, List.filter_append, List.prefix_append_right_inj] at hpass
        rcases hpass with ⟨others, hothers⟩
        rcases List.filter_eq_cons_iff.mp hothers.symm with
          ⟨gap, more, hgap, hnone, hb, _⟩
        have hitems : front ++ rest = (front ++ gap) ++ b :: more := by
          rw [hgap]
          simp
        have hprefix : (front ++ gap).filter p ++ [b] <+: found := by
          refine ⟨extra, ?_⟩
          rw [List.filter_append, List.filter_eq_nil_iff.mpr hnone, List.append_nil,
            ← hextra]
          simp
        exact absurd ((h.shows_iff hpos hitems hb).mp hprefix) (hbeyond gap b more hgap hb)

/-- What is shown is what passes in a front of the list if and only if reading gets
through the front, and to no item that passes behind it. -/
theorem Reads.eq_filter_iff {count window : Nat} (hpos : 0 < count)
    {front rest found : List α}
    (h : Reads p mark count window (front ++ rest) found) :
    found = front.filter p <->
      Dense p mark count window front ∧
        forall gap b more, rest = gap ++ b :: more -> p b = true ->
          ¬ Dense p mark count window (front ++ gap ++ [b]) := by
  constructor
  · intro hfound
    constructor
    · apply dense_iff.mpr
      intro before b behind hfront hb
      have hsplit : front ++ rest = before ++ b :: (behind ++ rest) := by
        rw [hfront]
        simp
      apply (h.shows_iff hpos hsplit hb).mp
      refine ⟨behind.filter p, ?_⟩
      rw [hfound, hfront, List.filter_append, List.filter_cons_of_pos hb,
        List.append_assoc]
      rfl
    · intro gap b more hrest hb hdense
      have hsplit : front ++ rest = front ++ gap ++ b :: more := by
        rw [hrest]
        simp
      have hle := ((h.shows_iff hpos hsplit hb).mpr hdense).length_le
      rw [hfound, List.filter_append, List.length_append, List.length_append,
        List.length_singleton] at hle
      omega
  · intro hreached
    have hshown := h.filter_isPrefix hpos hreached.1
    exact (h.isPrefix_filter hpos hreached.2).eq_of_length_le hshown.length_le

theorem Reads.eq_filter_all_iff {count window : Nat} (hpos : 0 < count)
    {items found : List α} (h : Reads p mark count window items found) :
    found = items.filter p <-> Dense p mark count window items := by
  have hsplit : Reads p mark count window (items ++ []) found := by
    rw [List.append_nil]
    exact h
  rw [hsplit.eq_filter_iff hpos]
  refine and_iff_left fun gap b more hrest => ?_
  cases gap <;> cases hrest

end Pages

end Foundation
