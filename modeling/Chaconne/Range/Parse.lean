import Chaconne.CLib.Strtol
import Chaconne.CLib.CInt

/-!
# `range.c`: `range_parse`

`range_parse(desc, range, size, endptr)` reads a list of items
`start end description`, separated by commas, with a state machine over the
bytes of `desc`: a digit starts or continues a number, white space after a
number stores it (`strtoul`, kept in an `int`), anything printable starts or
continues the description, and a comma, a newline inside a description or the
final NUL stores the item. Each store checks `i == size` first, so the count
never passes `size` (`rangeParse_count_le`).

What is stored at the NUL after a comma is not checked: the state `delimiter`
is accepted there and `entry` still holds the last item, so a trailing comma
stores that item a second time, with the comma as its description
(`range_parse_trailing_comma`).
-/

namespace Chaconne

open CLib

/-- The states of `range_parse`. -/
inductive RangeState
  | start
  | rangeStart
  | rangeStartSpace
  | rangeEnd
  | rangeEndSpace
  | rangeDesc
  | delimiter
  | done
deriving DecidableEq, Repr

/-- `struct range`; `desc` is the offset of the description in the text. -/
structure RangeEntry where
  start : Int
  stop : Int
  desc : Nat
  descLen : Nat
deriving DecidableEq, Repr

/-- The variables of `range_parse`: the state, `p`, `entry`, `s`, the items
stored in `range[0..i)`, and `*endptr` once it is set. -/
structure RangeParse where
  state : RangeState
  p : Nat
  entry : RangeEntry
  s : Nat
  ranges : List RangeEntry
  endptr : Option Nat

/-- `for (s = p; s > entry.desc; s--) if (*(s-1) != ' ') break;`: the end of
the description without its trailing spaces. -/
def trimBack (text : List UInt8) (desc : Nat) : Nat → Nat
  | 0 => 0
  | s + 1 => if s + 1 ≤ desc then s + 1 else if text.getD s 0 ≠ 32 then s + 1 else trimBack text desc s

/-- A number `strtoul(s, NULL, 10)` reads, stored in an `int`. -/
def rangeNumber (text : List UInt8) (s : Nat) : Int :=
  intOfNat (strtoul (text.drop s))

/-- The store of an item: `entry.desc = s`, the trim loop, the check
`i == size`, and `range[i++] = entry`. -/
def rangeStore (text : List UInt8) (size : Nat) (st : RangeParse) : Except Int RangeParse :=
  let s := trimBack text st.s st.p
  let entry := { st.entry with desc := st.s, descLen := s - st.s }
  if st.ranges.length = size then .error (-1)
  else .ok { st with entry, s, ranges := st.ranges ++ [entry] }

/-- One round of the loop, on the byte at `p` (the end of the text reads as
the NUL). -/
def rangeStep (text : List UInt8) (size : Nat) (st : RangeParse) : Except Int RangeParse :=
  let c := text.getD st.p 0
  if c = 32 ∨ c = 9 ∨ c = 10 then
    if c = 10 ∧ st.state = .rangeDesc then
      (rangeStore text size st).map fun st => { st with state := .done, endptr := some st.p }
    else if st.state = .rangeStart then
      .ok { st with entry := { st.entry with start := rangeNumber text st.s },
                    state := .rangeStartSpace, p := st.p + 1 }
    else if st.state = .rangeEnd then
      .ok { st with entry := { st.entry with stop := rangeNumber text st.s },
                    state := .rangeEndSpace, p := st.p + 1 }
    else .ok { st with p := st.p + 1 }
  else if c = 44 then                                     -- ','
    if st.state ≠ .rangeDesc then .error (-1)
    else (rangeStore text size { st with state := .delimiter }).map fun st => { st with p := st.p + 1 }
  else if c = 0 then
    if st.state ≠ .rangeDesc ∧ st.state ≠ .delimiter then .error (-1)
    else (rangeStore text size st).map fun st => { st with state := .done, endptr := some st.p }
  else if isdigit c then
    .ok (match st.state with
      | .start | .delimiter => { st with s := st.p, state := .rangeStart, p := st.p + 1 }
      | .rangeStartSpace => { st with s := st.p, state := .rangeEnd, p := st.p + 1 }
      | .rangeEndSpace => { st with s := st.p, state := .rangeDesc, p := st.p + 1 }
      | _ => { st with p := st.p + 1 })
  else if isgraph c then
    if st.state = .rangeEndSpace then .ok { st with s := st.p, state := .rangeDesc, p := st.p + 1 }
    else if st.state ≠ .rangeDesc then .error (-1)
    else .ok { st with p := st.p + 1 }
  else .error (-1)

/-- The loop, for at most `fuel` rounds; it returns `i` once the state is
`done`. -/
def rangeLoop (text : List UInt8) (size : Nat) : Nat → RangeParse → Int × RangeParse
  | 0, st => (-1, st)
  | fuel + 1, st =>
    match rangeStep text size st with
    | .error e => (e, st)
    | .ok st' => if st'.state = .done then (st'.ranges.length, st') else rangeLoop text size fuel st'

/-- `range_parse(desc, range, size, endptr)` on the text before the NUL: the
return value, `range[0..i)` and `*endptr`. Every round but the last moves `p`,
so one more round than the text has bytes is enough. -/
def rangeParse (text : List UInt8) (size : Nat) : Int × List RangeEntry × Option Nat :=
  let r := rangeLoop text size (text.length + 1) ⟨.start, 0, ⟨0, 0, 0, 0⟩, 0, [], none⟩
  (r.1, r.2.ranges, r.2.endptr)

/-! ## The count stays within `size` -/

theorem rangeStore_count {text : List UInt8} {size : Nat} {st st' : RangeParse}
    (hst : st.ranges.length ≤ size) (h : rangeStore text size st = .ok st') :
    st'.ranges.length ≤ size := by
  unfold rangeStore at h
  split_ifs at h with hfull
  cases h
  simp only [List.length_append, List.length_singleton]
  omega

/-- A store, then a change of the other variables. -/
theorem rangeStore_map_count {text : List UInt8} {size : Nat} {st st' : RangeParse}
    {f : RangeParse → RangeParse} (hf : ∀ x, (f x).ranges = x.ranges)
    (hst : st.ranges.length ≤ size) (h : (rangeStore text size st).map f = .ok st') :
    st'.ranges.length ≤ size := by
  cases hs : rangeStore text size st with
  | error e =>
    rw [hs] at h
    cases h
  | ok x =>
    rw [hs] at h
    cases h
    rw [hf]
    exact rangeStore_count hst hs

/-- **Step lemma.** A round that goes on keeps the items within `size`. -/
theorem rangeStep_count {text : List UInt8} {size : Nat} {st st' : RangeParse}
    (hst : st.ranges.length ≤ size) (h : rangeStep text size st = .ok st') :
    st'.ranges.length ≤ size := by
  unfold rangeStep at h
  dsimp only at h
  split_ifs at h
  -- only the three stores add an item; every other round keeps `ranges`
  all_goals first
    | (refine rangeStore_map_count ?_ ?_ h
       · intro _
         rfl
       · exact hst)
    | (cases h; exact hst)
    | (split at h <;> (cases h; exact hst))

/-- **Run lemma.** However the loop ends, the items stay within `size`. -/
theorem rangeLoop_count {text : List UInt8} {size : Nat} :
    ∀ (fuel : Nat) (st : RangeParse), st.ranges.length ≤ size →
      (rangeLoop text size fuel st).2.ranges.length ≤ size
  | 0, _, hst => hst
  | fuel + 1, st, hst => by
    unfold rangeLoop
    split
    · exact hst
    · rename_i st' hstep
      have h' := rangeStep_count hst hstep
      split
      · exact h'
      · exact rangeLoop_count fuel st' h'

theorem rangeStore_error {text : List UInt8} {size : Nat} {st : RangeParse} {e : Int}
    (h : rangeStore text size st = .error e) : e = -1 := by
  unfold rangeStore at h
  split_ifs at h
  cases h
  rfl

theorem rangeStore_map_error {text : List UInt8} {size : Nat} {st : RangeParse} {e : Int}
    {f : RangeParse → RangeParse} (h : (rangeStore text size st).map f = .error e) : e = -1 := by
  cases hs : rangeStore text size st with
  | error e' =>
    rw [hs] at h
    cases h
    exact rangeStore_error hs
  | ok x =>
    rw [hs] at h
    cases h

/-- Every error of a round is `-1`. -/
theorem rangeStep_error {text : List UInt8} {size : Nat} {st : RangeParse} {e : Int}
    (h : rangeStep text size st = .error e) : e = -1 := by
  unfold rangeStep at h
  dsimp only at h
  split_ifs at h
  all_goals first
    | exact rangeStore_map_error h
    | (cases h; rfl)

theorem rangeLoop_ret {text : List UInt8} {size : Nat} :
    ∀ (fuel : Nat) (st : RangeParse),
      (rangeLoop text size fuel st).1 = -1 ∨
        (rangeLoop text size fuel st).1 = (rangeLoop text size fuel st).2.ranges.length
  | 0, _ => .inl rfl
  | fuel + 1, st => by
    unfold rangeLoop
    split
    · rename_i e hstep
      exact .inl (rangeStep_error hstep)
    · split
      · exact .inr rfl
      · exact rangeLoop_ret fuel _

/-- `range_parse` returns `-1` or the number of items it stored, and that is
at most `size`. -/
theorem rangeParse_count_le (text : List UInt8) (size : Nat) :
    (rangeParse text size).2.1.length ≤ size ∧
      ((rangeParse text size).1 = -1 ∨ (rangeParse text size).1 = (rangeParse text size).2.1.length) :=
  ⟨rangeLoop_count _ _ (Nat.zero_le size), rangeLoop_ret _ _⟩

/-- `1 2 a,`: the trailing comma stores the item `1 2` a second time, with the
description `,`, and `range_parse` returns 2. -/
theorem range_parse_trailing_comma :
    rangeParse (bytesOf "1 2 a,") 32 = (2, [⟨1, 2, 4, 1⟩, ⟨1, 2, 5, 1⟩], some 6) := by
  decide

end Chaconne
