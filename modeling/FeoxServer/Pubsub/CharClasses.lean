import FeoxServer.Foundation.Checked
import FeoxServer.Pubsub.Pattern

/-!
# Character classes

The grammar of classes, and the parser of classes once more with every index, every
step of a place and the sum of octets checked.
-/

namespace FeoxServer

open Foundation Checked

/-!
# The parser with its panics
-/

def addOctets (a b : UInt8) : Checked UInt8 :=
  if a.toNat + b.toNat < 2 ^ 8 then .ok (a + b) else .error .overflow

/-- The octets `start..=stop`. -/
def octetsThrough (start stop : UInt8) : List UInt8 :=
  (List.range' start.toNat (stop.toNat + 1 - start.toNat)).map UInt8.ofNat

/-- The two ends of a range whose hyphen stands at place `i`: there is an octet before
the hyphen, and what stands behind it does not close the class. -/
def rangeAtChecked (pattern : Bytes) (i : Nat) (b : UInt8) (chars : List UInt8) :
    Checked (Option (UInt8 × UInt8)) :=
  if b = 45 then
    match chars.getLast? with
    | some start => do
        let next <- Checked.add i 1
        if next < pattern.length then
          let stop <- Checked.index pattern next
          if stop ≠ 93 then pure (some (start, stop)) else pure none
        else pure none
    | none => pure none
  else pure none

def charClassLoopChecked (pattern : Bytes) (negated : Bool) :
    Nat -> Nat -> List UInt8 -> Bool -> Checked (Option (List UInt8 × Bool) × Nat)
  | 0, _, _, _ => pure (none, 0)
  | fuel + 1, i, chars, escaped =>
      if i < pattern.length then do
        let b <- Checked.index pattern i
        if escaped then
          let next <- Checked.add i 1
          charClassLoopChecked pattern negated fuel next (chars ++ [b]) false
        else if b = 92 then
          let next <- Checked.add i 1
          charClassLoopChecked pattern negated fuel next chars true
        else if b = 93 then
          let next <- Checked.add i 1
          pure (some (chars, negated), next)
        else
          match <- rangeAtChecked pattern i b chars with
          | some (start, stop) =>
              let first <- addOctets start 1
              let hyphen <- Checked.add i 1
              let next <- Checked.add hyphen 1
              charClassLoopChecked pattern negated fuel next
                (chars ++ octetsThrough first stop) false
          | none =>
              let next <- Checked.add i 1
              charClassLoopChecked pattern negated fuel next (chars ++ [b]) false
      else pure (none, 0)

/-- `parse_char_class` with as many rounds of its loop as there is fuel. -/
def parseCharClassChecked (fuel : Nat) (pattern : Bytes) :
    Checked (Option (List UInt8 × Bool) × Nat) :=
  if pattern.isEmpty then pure (none, 0)
  else do
    let first <- Checked.index pattern 0
    if first ≠ 91 then pure (none, 0)
    else
      let negated := pattern[1]? == some 94
      charClassLoopChecked pattern negated fuel (if negated then 2 else 1) [] false

/-!
# The grammar of classes
-/

/-- What may stand in a class. -/
inductive ClassItem where
  | single (b : UInt8)
  | escaped (b : UInt8)
  | range (lo hi : UInt8)

namespace ClassItem

def Has : ClassItem -> UInt8 -> Prop
  | single b, c | escaped b, c => c = b
  | range lo hi, c => lo <= c ∧ c <= hi

def last : ClassItem -> UInt8
  | single b | escaped b => b
  | range lo hi => if lo < hi then hi else lo

def FromTop : ClassItem -> Prop
  | range lo _ => lo = 255
  | _ => False

end ClassItem

/-- The item at the head of a text, behind an item that ends with `last`.  The octet
behind a hyphen is taken as it stands. -/
inductive ReadsItem : Option UInt8 -> Bytes -> ClassItem -> Bytes -> Prop
  | escaped {last : Option UInt8} {text : Bytes} (b : UInt8) :
      ReadsItem last (92 :: b :: text) (.escaped b) text
  | range {text : Bytes} (lo hi : UInt8) (hhi : hi ≠ 93) :
      ReadsItem (some lo) (45 :: hi :: text) (.range lo hi) text
  | single {last : Option UInt8} {text : Bytes} (b : UInt8) (hb : b ≠ 92 ∧ b ≠ 93)
      (hhyphen : b = 45 -> last = none ∨ text = [] ∨ text.head? = some 93) :
      ReadsItem last (b :: text) (.single b) text

/-- The items at the head of a text, and what stands behind them. -/
inductive ReadsItems : Option UInt8 -> Bytes -> List ClassItem -> Bytes -> Prop
  | nil {last : Option UInt8} {text : Bytes} : ReadsItems last text [] text
  | cons {last : Option UInt8} {text text' rest : Bytes} {item : ClassItem}
      {items : List ClassItem} (hitem : ReadsItem last text item text')
      (hitems : ReadsItems (some item.last) text' items rest) :
      ReadsItems last text (item :: items) rest

def classNegated (text : Bytes) : Bool :=
  text.head? == some 94

/-- The text behind the bracket and the sign of negation. -/
def classBody (text : Bytes) : Bytes :=
  if classNegated text then text.tail else text

/-- What is returned for a bracket and the text behind it: the class up to the first
bracket that closes it, or nothing if there is none. -/
def ClassRead (text : Bytes)
    (result : Checked (Option (List UInt8 × Bool) × Nat)) : Prop :=
  (exists items rest chars n, ReadsItems none (classBody text) items (93 :: rest) ∧
    result = .ok (some (chars, classNegated text), n) ∧
    (forall c, c ∈ chars ↔ ∃ item ∈ items, item.Has c) ∧
    0 < n ∧ n <= (91 :: text).length ∧ (91 :: text).drop n = rest) ∨
  ((forall items rest, ¬ ReadsItems none (classBody text) items (93 :: rest)) ∧
    result = .ok (none, 0))

/-- A range from the highest octet is among the items of a text. -/
def TopRange (last : Option UInt8) (text : Bytes) : Prop :=
  exists items rest, ReadsItems last text items rest ∧ ∃ item ∈ items, item.FromTop

/-!
# Items are read in one way
-/

namespace ReadsItem

variable {last : Option UInt8} {text text' : Bytes} {item : ClassItem}

theorem unique (h : ReadsItem last text item text') {item' : ClassItem} {text'' : Bytes}
    (h' : ReadsItem last text item' text'') : item = item' ∧ text' = text'' := by
  cases h with
  | escaped b =>
      cases h' with
      | escaped => exact ⟨rfl, rfl⟩
      | single _ hb => exact absurd rfl hb.1
  | range lo hi hhi =>
      cases h' with
      | range => exact ⟨rfl, rfl⟩
      | single _ _ hhyphen =>
          rcases hhyphen rfl with hnone | hnil | hclosed
          · cases hnone
          · cases hnil
          · cases hclosed
            exact absurd rfl hhi
  | single b hb hhyphen =>
      cases h' with
      | escaped => exact absurd rfl hb.1
      | range lo hi hhi =>
          rcases hhyphen rfl with hnone | hnil | hclosed
          · cases hnone
          · cases hnil
          · cases hclosed
            exact absurd rfl hhi
      | single => exact ⟨rfl, rfl⟩

theorem not_closing {rest : Bytes} : ¬ ReadsItem last (93 :: rest) item text' := by
  intro h
  cases h with
  | single _ hb => exact hb.2 rfl

theorem not_nil : ¬ ReadsItem last [] item text' :=
  nofun

theorem not_backslash : ¬ ReadsItem last [92] item text' := by
  intro h
  cases h with
  | single _ hb => exact hb.1 rfl

theorem shorter (h : ReadsItem last text item text') : text'.length < text.length := by
  cases h <;> simp

end ReadsItem

theorem readsItem_or_stuck (last : Option UInt8) (text : Bytes) :
    (exists item text', ReadsItem last text item text') ∨ text = [] ∨ text = [92] ∨
      exists rest, text = 93 :: rest := by
  match text with
  | [] => exact .inr (.inl rfl)
  | b :: text =>
      by_cases hback : b = 92
      · subst hback
        cases text with
        | nil => exact .inr (.inr (.inl rfl))
        | cons c text => exact .inl ⟨_, _, .escaped c⟩
      · by_cases hclose : b = 93
        · exact .inr (.inr (.inr ⟨text, by rw [hclose]⟩))
        · by_cases hhyphen : b = 45 -> last = none ∨ text = [] ∨ text.head? = some 93
          · exact .inl ⟨_, _, .single b ⟨hback, hclose⟩ hhyphen⟩
          · rw [Classical.not_imp, not_or, not_or] at hhyphen
            rcases hhyphen with ⟨rfl, hlast, hnil, hhead⟩
            rcases Option.ne_none_iff_exists'.mp hlast with ⟨lo, rfl⟩
            rcases List.exists_cons_of_ne_nil hnil with ⟨hi, rest, rfl⟩
            exact .inl ⟨_, _, .range lo hi fun heq => hhead (congrArg some heq)⟩

section Steps

variable {last : Option UInt8} {text text' : Bytes} {item : ClassItem}

theorem closes_iff (h : ReadsItem last text item text') {rest : Bytes} :
    (exists items, ReadsItems last text items (93 :: rest)) ↔
      exists items, ReadsItems (some item.last) text' items (93 :: rest) := by
  constructor
  · rintro ⟨items, hitems⟩
    cases hitems with
    | nil => exact absurd h ReadsItem.not_closing
    | cons hitem hitems =>
        rcases h.unique hitem with ⟨rfl, rfl⟩
        exact ⟨_, hitems⟩
  · rintro ⟨items, hitems⟩
    exact ⟨_, .cons h hitems⟩

theorem topRange_iff (h : ReadsItem last text item text') :
    TopRange last text ↔ item.FromTop ∨ TopRange (some item.last) text' := by
  constructor
  · rintro ⟨items, rest, hitems, top, hmem, htop⟩
    cases hitems with
    | nil => cases hmem
    | cons hitem hitems =>
        rcases h.unique hitem with ⟨rfl, rfl⟩
        rcases List.mem_cons.mp hmem with rfl | hmem
        · exact .inl htop
        · exact .inr ⟨_, rest, hitems, top, hmem, htop⟩
  · rintro (htop | ⟨items, rest, hitems, top, hmem, htop⟩)
    · exact ⟨[item], text', .cons h .nil, item, List.mem_singleton_self item, htop⟩
    · exact ⟨item :: items, rest, .cons h hitems, top, List.mem_cons_of_mem _ hmem, htop⟩

end Steps

section Stuck

variable {last : Option UInt8} {text : Bytes}
  (h : forall item text', ¬ ReadsItem last text item text')

include h

theorem not_topRange_of_stuck : ¬ TopRange last text := by
  rintro ⟨items, rest, hitems, top, hmem, _⟩
  cases hitems with
  | nil => cases hmem
  | cons hitem _ => exact h _ _ hitem

theorem eq_of_stuck {items : List ClassItem} {rest : Bytes}
    (hitems : ReadsItems last text items rest) : text = rest := by
  cases hitems with
  | nil => rfl
  | cons hitem _ => exact absurd hitem (h _ _)

end Stuck

/-!
# The octets of an item
-/

def ClassItem.octets : ClassItem -> List UInt8
  | single b | escaped b => [b]
  | range lo hi => octetsThrough (lo + 1) hi

theorem mem_octetsThrough {start stop c : UInt8} :
    c ∈ octetsThrough start stop ↔ start <= c ∧ c <= stop := by
  have hstart := start.toNat_lt
  have hstop := stop.toNat_lt
  unfold octetsThrough
  rw [List.mem_map]
  simp only [List.mem_range'_1, UInt8.le_iff_toNat_le]
  constructor
  · rintro ⟨n, hn, rfl⟩
    rw [UInt8.toNat_ofNat_of_lt' (by rw [UInt8.size]; omega)]
    omega
  · intro h
    exact ⟨c.toNat, by omega, UInt8.ofNat_toNat⟩

theorem getLast?_octetsThrough {start stop : UInt8} (h : start <= stop) :
    (octetsThrough start stop).getLast? = some stop := by
  have hle := UInt8.le_iff_toNat_le.mp h
  have hcount : stop.toNat + 1 - start.toNat = (stop.toNat - start.toNat) + 1 := by omega
  unfold octetsThrough
  rw [hcount, List.range'_concat, List.map_append, List.getLast?_append]
  have hlast : start.toNat + 1 * (stop.toNat - start.toNat) = stop.toNat := by omega
  rw [hlast]
  simp

theorem octetsThrough_nil {start stop : UInt8} (h : stop < start) :
    octetsThrough start stop = [] := by
  have hlt := UInt8.lt_iff_toNat_lt.mp h
  unfold octetsThrough
  rw [show stop.toNat + 1 - start.toNat = 0 by omega]
  rfl

theorem toNat_succ {b : UInt8} (h : b ≠ 255) : (b + 1).toNat = b.toNat + 1 := by
  revert b
  decide +kernel

theorem getLast?_append_octets {last : Option UInt8} {text text' : Bytes}
    {item : ClassItem} (h : ReadsItem last text item text') (htop : ¬ item.FromTop)
    {chars : List UInt8} (hlast : chars.getLast? = last) :
    (chars ++ item.octets).getLast? = some item.last := by
  cases h with
  | escaped b => simp [ClassItem.octets, ClassItem.last]
  | single b => simp [ClassItem.octets, ClassItem.last]
  | range lo hi hhi =>
      have hsucc := toNat_succ htop
      rw [ClassItem.octets, ClassItem.last, List.getLast?_append, hlast]
      by_cases hlt : lo < hi
      · have hle : lo + 1 <= hi := by
          rw [UInt8.le_iff_toNat_le, hsucc]
          exact UInt8.lt_iff_toNat_lt.mp hlt
        rw [getLast?_octetsThrough hle, if_pos hlt]
        rfl
      · have hgt : hi < lo + 1 := by
          rw [UInt8.lt_iff_toNat_lt] at hlt ⊢
          omega
        rw [octetsThrough_nil hgt, if_neg hlt]
        rfl

theorem mem_octets_iff {last : Option UInt8} {text rest : Bytes} {items : List ClassItem}
    (h : ReadsItems last text items rest) (htop : ¬ TopRange last text)
    {chars : List UInt8} (hlast : chars.getLast? = last) (c : UInt8) :
    c ∈ chars ++ items.flatMap ClassItem.octets ↔
      c ∈ chars ∨ ∃ item ∈ items, item.Has c := by
  induction h generalizing chars with
  | nil => simp
  | @cons last text text' rest item items hitem hitems ih =>
      rw [topRange_iff hitem, not_or] at htop
      have hrest := ih htop.2 (getLast?_append_octets hitem htop.1 hlast)
      have hhead : c ∈ chars ++ item.octets ↔ c ∈ chars ∨ item.Has c := by
        rw [List.mem_append]
        cases hitem with
        | escaped b => rw [ClassItem.octets, List.mem_singleton]; rfl
        | single b => rw [ClassItem.octets, List.mem_singleton]; rfl
        | range lo hi hhi =>
            have hlo : lo ∈ chars := List.mem_of_getLast? hlast
            have hsucc := toNat_succ htop.1
            have hnext : lo + 1 <= c ↔ lo <= c ∧ c ≠ lo := by
              rw [UInt8.le_iff_toNat_le, UInt8.le_iff_toNat_le, hsucc, ne_eq,
                ← UInt8.toNat_inj]
              omega
            rw [ClassItem.octets, mem_octetsThrough, hnext]
            constructor
            · rintro (hc | hc)
              · exact .inl hc
              · exact .inr ⟨hc.1.1, hc.2⟩
            · rintro (hc | hc)
              · exact .inl hc
              · by_cases heq : c = lo
                · exact .inl (heq ▸ hlo)
                · exact .inr ⟨⟨hc.1, heq⟩, hc.2⟩
      rw [List.flatMap_cons, ← List.append_assoc, hrest, hhead, or_assoc]
      simp only [List.mem_cons, exists_eq_or_imp]

/-!
# The rounds of the loop
-/

section Rounds

variable {pattern : Bytes} {negated : Bool} {i : Nat} {text : Bytes}

theorem rangeAtChecked_none (hfits : pattern.length <= isizeMax) {b : UInt8}
    {chars : List UInt8} (hi : i < pattern.length) (hdrop : pattern.drop (i + 1) = text)
    (hhyphen : b = 45 -> chars.getLast? = none ∨ text = [] ∨ text.head? = some 93) :
    rangeAtChecked pattern i b chars = .ok none := by
  unfold isizeMax at hfits
  unfold rangeAtChecked
  split
  · rename_i heq
    split
    · rename_i start hstart
      rw [add_ok (by omega), ok_bind]
      split
      · rename_i hnext
        have hget := List.getElem?_eq_getElem hnext
        have hhead : text.head? = some pattern[i + 1] := by
          rw [← hdrop, List.head?_drop, hget]
        rw [index_ok hget, ok_bind]
        rcases hhyphen heq with hnone | rfl | hclosed
        · rw [hnone] at hstart
          cases hstart
        · cases hhead
        · rw [hclosed] at hhead
          rw [if_neg (not_not.mpr (Option.some.inj hhead).symm)]
          rfl
      · rfl
    · rfl
  · rfl

theorem rangeAtChecked_some (hfits : pattern.length <= isizeMax) {lo hi : UInt8}
    {chars : List UInt8} (hdrop : pattern.drop i = 45 :: hi :: text) (hhi : hi ≠ 93)
    (hlast : chars.getLast? = some lo) :
    rangeAtChecked pattern i 45 chars = .ok (some (lo, hi)) := by
  unfold isizeMax at hfits
  rcases of_drop_cons hdrop with ⟨hi, _, hrest⟩
  rcases of_drop_cons hrest with ⟨hnext, hget, _⟩
  unfold rangeAtChecked
  rw [if_pos rfl, hlast]
  dsimp only
  rw [add_ok (by omega), ok_bind, if_pos hnext, index_ok hget, ok_bind, if_pos hhi]
  rfl

variable (negated) in
theorem charClassLoopChecked_item (hfits : pattern.length <= isizeMax) {text' : Bytes}
    {item : ClassItem} {chars : List UInt8} (hdrop : pattern.drop i = text)
    (hitem : ReadsItem chars.getLast? text item text') (htop : ¬ item.FromTop)
    {fuel : Nat} (hfuel : text.length <= fuel) :
    exists fuel' j, text'.length <= fuel' ∧ pattern.drop j = text' ∧
      charClassLoopChecked pattern negated fuel i chars false =
        charClassLoopChecked pattern negated fuel' j (chars ++ item.octets) false := by
  have hsize := hfits
  unfold isizeMax at hsize
  generalize hlast : chars.getLast? = last at hitem
  cases hitem with
  | escaped b =>
      rcases of_drop_cons hdrop with ⟨hi, hget, hrest⟩
      rcases of_drop_cons hrest with ⟨hi', hget', hrest'⟩
      rw [List.length_cons, List.length_cons] at hfuel
      obtain ⟨fuel, rfl⟩ : exists k, fuel = k + 2 := ⟨fuel - 2, by omega⟩
      refine ⟨fuel, i + 1 + 1, by omega, hrest', ?_⟩
      rw [charClassLoopChecked, if_pos hi, index_ok hget, ok_bind,
        if_neg Bool.false_ne_true, if_pos rfl, add_ok (by omega), ok_bind,
        charClassLoopChecked, if_pos hi', index_ok hget', ok_bind, if_pos rfl,
        add_ok (by omega), ok_bind]
      rfl
  | range lo hi hhi =>
      rcases of_drop_cons hdrop with ⟨hi, hget, hrest⟩
      rcases of_drop_cons hrest with ⟨hi', hget', hrest'⟩
      rw [List.length_cons, List.length_cons] at hfuel
      obtain ⟨fuel, rfl⟩ : exists k, fuel = k + 1 := ⟨fuel - 1, by omega⟩
      have hfirst : addOctets lo 1 = .ok (lo + 1) := by
        have hsucc := toNat_succ htop
        have hlt := (lo + 1).toNat_lt
        refine if_pos ?_
        rw [UInt8.toNat_one]
        omega
      refine ⟨fuel, i + 1 + 1, by omega, hrest', ?_⟩
      rw [charClassLoopChecked, if_pos hi, index_ok hget, ok_bind,
        if_neg Bool.false_ne_true, if_neg (by decide), if_neg (by decide),
        rangeAtChecked_some hfits hdrop hhi hlast, ok_bind]
      dsimp only
      rw [hfirst, ok_bind, add_ok (by omega), ok_bind, add_ok (by omega), ok_bind]
      rfl
  | single b hb hhyphen =>
      rcases of_drop_cons hdrop with ⟨hi, hget, hrest⟩
      rw [List.length_cons] at hfuel
      obtain ⟨fuel, rfl⟩ : exists k, fuel = k + 1 := ⟨fuel - 1, by omega⟩
      refine ⟨fuel, i + 1, by omega, hrest, ?_⟩
      rw [charClassLoopChecked, if_pos hi, index_ok hget, ok_bind,
        if_neg Bool.false_ne_true, if_neg hb.1, if_neg hb.2,
        rangeAtChecked_none hfits hi hrest (hlast ▸ hhyphen), ok_bind]
      dsimp only
      rw [add_ok (by omega), ok_bind]
      rfl

theorem charClassLoopChecked_top (hfits : pattern.length <= isizeMax) {text' : Bytes}
    {item : ClassItem} {chars : List UInt8} (hdrop : pattern.drop i = text)
    (hitem : ReadsItem chars.getLast? text item text') (htop : item.FromTop)
    {fuel : Nat} (hfuel : text.length <= fuel) :
    charClassLoopChecked pattern negated fuel i chars false = .error .overflow := by
  generalize hlast : chars.getLast? = last at hitem
  cases hitem with
  | escaped b => cases htop
  | single b => cases htop
  | range lo hi hhi =>
      cases (show lo = 255 from htop)
      rcases of_drop_cons hdrop with ⟨hi, hget, _⟩
      rw [List.length_cons] at hfuel
      obtain ⟨fuel, rfl⟩ : exists k, fuel = k + 1 := ⟨fuel - 1, by omega⟩
      rw [charClassLoopChecked, if_pos hi, index_ok hget, ok_bind,
        if_neg Bool.false_ne_true, if_neg (by decide), if_neg (by decide),
        rangeAtChecked_some hfits hdrop hhi hlast, ok_bind]
      rfl

theorem charClassLoopChecked_end {chars : List UInt8} {escaped : Bool}
    (hdrop : pattern.drop i = []) (fuel : Nat) :
    charClassLoopChecked pattern negated fuel i chars escaped = .ok (none, 0) := by
  cases fuel with
  | zero => rfl
  | succ fuel =>
      have hlen := List.drop_eq_nil_iff.mp hdrop
      rw [charClassLoopChecked, if_neg (Nat.not_lt.mpr hlen)]
      rfl

theorem charClassLoopChecked_backslash (hfits : pattern.length <= isizeMax)
    {chars : List UInt8} (hdrop : pattern.drop i = [92]) (fuel : Nat) :
    charClassLoopChecked pattern negated fuel i chars false = .ok (none, 0) := by
  unfold isizeMax at hfits
  cases fuel with
  | zero => rfl
  | succ fuel =>
      rcases of_drop_cons hdrop with ⟨hi, hget, hrest⟩
      rw [charClassLoopChecked, if_pos hi, index_ok hget, ok_bind,
        if_neg Bool.false_ne_true, if_pos rfl, add_ok (by omega), ok_bind,
        charClassLoopChecked_end hrest]

theorem charClassLoopChecked_close (hfits : pattern.length <= isizeMax)
    {chars : List UInt8} (hdrop : pattern.drop i = 93 :: text) {fuel : Nat}
    (hfuel : (93 :: text).length <= fuel) :
    charClassLoopChecked pattern negated fuel i chars false =
      .ok (some (chars, negated), i + 1) := by
  unfold isizeMax at hfits
  rw [List.length_cons] at hfuel
  obtain ⟨fuel, rfl⟩ : exists k, fuel = k + 1 := ⟨fuel - 1, by omega⟩
  rcases of_drop_cons hdrop with ⟨hi, hget, _⟩
  rw [charClassLoopChecked, if_pos hi, index_ok hget, ok_bind,
    if_neg Bool.false_ne_true, if_neg (by decide), if_pos rfl, add_ok (by omega), ok_bind]
  rfl

end Rounds

/-- How the loop ends from a place on: with the panic of a range from the highest
octet, behind the closing bracket, or with nothing. -/
inductive ClassEnds (pattern : Bytes) (negated : Bool) (text : Bytes) (chars : List UInt8) :
    Checked (Option (List UInt8 × Bool) × Nat) -> Prop
  | overflow (htop : TopRange chars.getLast? text) :
      ClassEnds pattern negated text chars (.error .overflow)
  | closed {items : List ClassItem} {rest : Bytes} {j : Nat}
      (htop : ¬ TopRange chars.getLast? text)
      (hitems : ReadsItems chars.getLast? text items (93 :: rest))
      (hj : pattern.drop j = 93 :: rest) :
      ClassEnds pattern negated text chars
        (.ok (some (chars ++ items.flatMap ClassItem.octets, negated), j + 1))
  | unclosed (htop : ¬ TopRange chars.getLast? text)
      (hopen : forall items rest, ¬ ReadsItems chars.getLast? text items (93 :: rest)) :
      ClassEnds pattern negated text chars (.ok (none, 0))

theorem ClassEnds.item {pattern : Bytes} {negated : Bool} {text text' : Bytes}
    {chars : List UInt8} {item : ClassItem}
    (hitem : ReadsItem chars.getLast? text item text') (hnot : ¬ item.FromTop)
    {result : Checked (Option (List UInt8 × Bool) × Nat)}
    (h : ClassEnds pattern negated text' (chars ++ item.octets) result) :
    ClassEnds pattern negated text chars result := by
  have hlast := getLast?_append_octets hitem hnot rfl
  cases h with
  | overflow htop =>
      rw [hlast] at htop
      exact .overflow ((topRange_iff hitem).mpr (.inr htop))
  | closed htop hitems hj =>
      rw [hlast] at htop hitems
      rw [List.append_assoc]
      exact .closed (fun h => ((topRange_iff hitem).mp h).elim hnot htop)
        (.cons hitem hitems) hj
  | unclosed htop hopen =>
      rw [hlast] at htop hopen
      refine .unclosed (fun h => ((topRange_iff hitem).mp h).elim hnot htop) ?_
      intro items rest hitems
      rcases (closes_iff hitem).mp ⟨items, hitems⟩ with ⟨items', hitems'⟩
      exact hopen items' rest hitems'

theorem charClassLoopChecked_ends {pattern : Bytes} (hfits : pattern.length <= isizeMax)
    (negated : Bool) {i : Nat} {text : Bytes} (hdrop : pattern.drop i = text)
    (chars : List UInt8) {fuel : Nat} (hfuel : text.length <= fuel) :
    ClassEnds pattern negated text chars
      (charClassLoopChecked pattern negated fuel i chars false) := by
  induction hlen : text.length using Nat.strong_induction_on
    generalizing text i chars fuel with
  | _ n ih =>
      cases hlen
      rcases readsItem_or_stuck chars.getLast? text with
        ⟨item, text', hitem⟩ | rfl | rfl | ⟨rest, rfl⟩
      · by_cases htop : item.FromTop
        · rw [charClassLoopChecked_top hfits hdrop hitem htop hfuel]
          exact .overflow ((topRange_iff hitem).mpr (.inl htop))
        · rcases charClassLoopChecked_item negated hfits hdrop hitem htop hfuel with
            ⟨fuel', j, hfuel', hdrop', hloop⟩
          rw [hloop]
          exact (ih _ hitem.shorter hdrop' _ hfuel' rfl).item hitem htop
      · have hstuck : forall item text', ¬ ReadsItem chars.getLast? [] item text' :=
          fun _ _ => ReadsItem.not_nil
        rw [charClassLoopChecked_end hdrop]
        exact .unclosed (not_topRange_of_stuck hstuck)
          fun _ _ hitems => nomatch eq_of_stuck hstuck hitems
      · have hstuck : forall item text', ¬ ReadsItem chars.getLast? [92] item text' :=
          fun _ _ => ReadsItem.not_backslash
        rw [charClassLoopChecked_backslash hfits hdrop]
        exact .unclosed (not_topRange_of_stuck hstuck)
          fun _ _ hitems => nomatch eq_of_stuck hstuck hitems
      · have hstuck : forall item text', ¬ ReadsItem chars.getLast? (93 :: rest) item text' :=
          fun _ _ => ReadsItem.not_closing
        have hend : ClassEnds pattern negated (93 :: rest) chars
            (.ok (some (chars ++ [].flatMap ClassItem.octets, negated), i + 1)) :=
          .closed (not_topRange_of_stuck hstuck) .nil hdrop
        rw [charClassLoopChecked_close hfits hdrop hfuel]
        rwa [List.flatMap_nil, List.append_nil] at hend

/-!
# What is returned
-/

def classStart (text : Bytes) : Nat :=
  if classNegated text then 2 else 1

theorem parseCharClassChecked_eq (text : Bytes) (fuel : Nat) :
    parseCharClassChecked fuel (91 :: text) =
      charClassLoopChecked (91 :: text) (classNegated text) fuel (classStart text) []
        false := by
  have hsecond : (91 :: text)[1]? = text.head? := List.head?_eq_getElem?.symm
  unfold parseCharClassChecked classStart classNegated
  rw [hsecond]
  rfl

theorem drop_classStart (text : Bytes) :
    (91 :: text).drop (classStart text) = classBody text := by
  unfold classStart classBody
  split
  · rw [List.drop_succ_cons, List.drop_one]
  · rfl

theorem length_classBody_le (text : Bytes) :
    (classBody text).length <= (91 :: text).length := by
  rw [← drop_classStart, List.length_drop]
  exact Nat.sub_le _ _

/-- A class is read as its grammar has it unless one of its ranges starts from the
highest octet. -/
theorem charClass_read_iff {text : Bytes} (hfits : (91 :: text).length <= isizeMax) :
    (forall fuel, (91 :: text).length <= fuel ->
        ClassRead text (parseCharClassChecked fuel (91 :: text))) ↔
      ¬ TopRange none (classBody text) := by
  have hends : forall fuel, (91 :: text).length <= fuel ->
      ClassEnds (91 :: text) (classNegated text) (classBody text) []
        (parseCharClassChecked fuel (91 :: text)) := by
    intro fuel hfuel
    rw [parseCharClassChecked_eq]
    exact charClassLoopChecked_ends hfits _ (drop_classStart text) []
      ((length_classBody_le text).trans hfuel)
  constructor
  · intro hread htop
    have hend := hends _ (Nat.le_refl _)
    have hgood := hread _ (Nat.le_refl _)
    generalize parseCharClassChecked _ _ = result at hend hgood
    cases hend with
    | overflow =>
        rcases hgood with ⟨_, _, _, _, _, h, _⟩ | ⟨_, h⟩ <;> cases h
    | closed hnot => exact hnot htop
    | unclosed hnot => exact hnot htop
  · intro htop fuel hfuel
    have hend := hends fuel hfuel
    generalize parseCharClassChecked fuel _ = result at hend
    cases hend with
    | overflow h => exact absurd h htop
    | @closed items rest j _ hitems hj =>
        have hplace := of_drop_cons hj
        exact .inl ⟨items, rest, _, j + 1, hitems, rfl,
          fun c => (mem_octets_iff hitems htop rfl c).trans (by simp),
          Nat.succ_pos j, hplace.1, hplace.2.2⟩
    | unclosed _ hopen => exact .inr ⟨hopen, rfl⟩

theorem charClass_read_range :
    ClassRead [97, 45, 99, 93] (parseCharClassChecked 5 [91, 97, 45, 99, 93]) := by
  refine (charClass_read_iff (by decide)).mpr ?_ 5 (Nat.le_refl 5)
  rintro htop
  have hsingle : ReadsItem none [97, 45, 99, 93] (.single 97) [45, 99, 93] :=
    .single 97 (by decide) (by decide)
  have hrange : ReadsItem (some 97) [45, 99, 93] (.range 97 99) [93] :=
    .range 97 99 (by decide)
  rcases (topRange_iff hsingle).mp htop with h | h
  · exact h
  · rcases (topRange_iff hrange).mp h with h | h
    · exact absurd h (by decide : ¬ (97 : UInt8) = 255)
    · exact not_topRange_of_stuck (fun _ _ => ReadsItem.not_closing) h

/-- A range from the highest octet overflows. -/
theorem charClass_overflows :
    parseCharClassChecked 5 [91, 255, 45, 122, 93] = .error .overflow ∧
      ¬ ClassRead [255, 45, 122, 93] (parseCharClassChecked 5 [91, 255, 45, 122, 93]) := by
  have hoverflow : parseCharClassChecked 5 [91, 255, 45, 122, 93] = .error .overflow := by
    decide
  refine ⟨hoverflow, ?_⟩
  rw [hoverflow]
  rintro (⟨_, _, _, _, _, h, _⟩ | ⟨_, h⟩) <;> cases h

/-!
# The parser without the checks
-/

theorem of_addOctets_ok {a b c : UInt8} (h : addOctets a b = .ok c) : c = a + b := by
  unfold addOctets at h
  split at h <;> cases h
  rfl

theorem charClassLoop_of_checked {pattern : Bytes} (hfits : pattern.length <= isizeMax)
    {negated : Bool}
    {found : Option (List UInt8 × Bool)} {n fuel fuel' i : Nat} {text : Bytes}
    {chars : List UInt8} {escaped : Bool} (hdrop : pattern.drop i = text)
    (hfuel : text.length <= fuel) (hfuel' : text.length <= fuel')
    (h : charClassLoopChecked pattern negated fuel i chars escaped = .ok (found, n)) :
    charClassLoop fuel' text chars escaped i = found.map fun r => (r.1, n) := by
  induction fuel generalizing i text chars escaped fuel' with
  | zero =>
      rw [List.eq_nil_of_length_eq_zero (Nat.le_zero.mp hfuel)]
      cases h
      cases fuel' <;> rfl
  | succ fuel ih =>
      cases text with
      | nil =>
          rw [charClassLoopChecked_end hdrop] at h
          cases h
          cases fuel' <;> rfl
      | cons b text =>
          rcases of_drop_cons hdrop with ⟨hi, hget, hrest⟩
          rw [List.length_cons] at hfuel hfuel'
          obtain ⟨fuel', rfl⟩ : exists k, fuel' = k + 1 := ⟨fuel' - 1, by omega⟩
          rw [charClassLoopChecked, if_pos hi, index_ok hget, ok_bind] at h
          unfold charClassLoop
          by_cases hescaped : escaped = true
          · rw [if_pos hescaped] at h ⊢
            rcases of_bind_ok h with ⟨next, hnext, h⟩
            rw [of_add_ok hnext] at h
            exact ih hrest (by omega) (by omega) h
          rw [if_neg hescaped] at h ⊢
          by_cases hback : b = 92
          · rw [if_pos hback] at h ⊢
            rcases of_bind_ok h with ⟨next, hnext, h⟩
            rw [of_add_ok hnext] at h
            exact ih hrest (by omega) (by omega) h
          rw [if_neg hback] at h ⊢
          by_cases hclose : b = 93
          · rw [if_pos hclose] at h ⊢
            rcases of_bind_ok h with ⟨next, hnext, h⟩
            cases h
            rw [of_add_ok hnext]
            rfl
          rw [if_neg hclose] at h ⊢
          by_cases hrange : exists lo hi rest,
              b = 45 ∧ chars.getLast? = some lo ∧ text = hi :: rest ∧ hi ≠ 93
          · rcases hrange with ⟨lo, hi, rest, rfl, hlast, rfl, hhi⟩
            rcases of_drop_cons hrest with ⟨_, _, hrest'⟩
            rw [List.length_cons] at hfuel hfuel'
            rw [rangeAtChecked_some hfits hdrop hhi hlast, ok_bind] at h
            rcases of_bind_ok h with ⟨first, hfirst, h⟩
            rcases of_bind_ok h with ⟨hyphen, hhyphen, h⟩
            rcases of_bind_ok h with ⟨next, hnext, h⟩
            rw [of_add_ok hnext, of_add_ok hhyphen, of_addOctets_ok hfirst] at h
            rw [hlast]
            dsimp only
            rw [if_pos ⟨rfl, hhi⟩]
            exact ih hrest' (by omega) (by omega) h
          · have hnone : b = 45 -> chars.getLast? = none ∨ text = [] ∨ text.head? = some 93 := by
              intro hb
              cases hlast : chars.getLast? with
              | none => exact .inl rfl
              | some lo =>
                  cases text with
                  | nil => exact .inr (.inl rfl)
                  | cons hi rest =>
                      refine .inr (.inr (congrArg some ?_))
                      by_contra hhi
                      exact hrange ⟨lo, hi, rest, hb, hlast, rfl, hhi⟩
            rw [rangeAtChecked_none hfits hi hrest hnone, ok_bind] at h
            rcases of_bind_ok h with ⟨next, hnext, h⟩
            rw [of_add_ok hnext] at h
            have hloop : charClassLoop fuel' text (chars ++ [b]) false (i + 1) =
                found.map fun r => (r.1, n) :=
              ih hrest (by omega) (by omega) h
            split
            · rename_i hlast
              rw [if_neg fun heq => hrange ⟨_, _, _, heq.1, hlast, rfl, heq.2⟩]
              exact hloop
            · exact hloop

theorem parseCharClass_eq (text : Bytes) :
    parseCharClass (91 :: text) =
      (charClassLoop (classBody text).length (classBody text) [] false
        (classStart text)).map fun r => (r.1, classNegated text, r.2) := by
  cases text with
  | nil => rfl
  | cons c text =>
      by_cases hc : c = 94
      · subst hc
        rfl
      · have hplain : classNegated (c :: text) = false :=
          beq_eq_false_iff_ne.mpr fun heq => hc (Option.some.inj heq)
        unfold parseCharClass classBody classStart
        rw [hplain]
        split
        · rename_i heq
          cases heq
          exact absurd rfl hc
        · rename_i heq
          cases heq
          rfl
        · rename_i hother
          exact absurd rfl (hother (c :: text))

theorem parseCharClass_of_checked {text : Bytes} (hfits : (91 :: text).length <= isizeMax)
    {found : Option (List UInt8 × Bool)} {n fuel : Nat}
    (hfuel : (91 :: text).length <= fuel)
    (h : parseCharClassChecked fuel (91 :: text) = .ok (found, n)) :
    parseCharClass (91 :: text) = found.map fun r => (r.1, classNegated text, n) := by
  rw [parseCharClassChecked_eq] at h
  rw [parseCharClass_eq, charClassLoop_of_checked hfits (drop_classStart text)
    ((length_classBody_le text).trans hfuel) (Nat.le_refl _) h, Option.map_map]
  rfl

end FeoxServer
