import Chaconne.Cli.Term
import Chaconne.CLib.Lists
import Chaconne.CLib.Refine

/-!
# The history ring refines a list

What the history is for: the list `H` of the lines added, oldest first (an
empty line ignored, a repeat of the most recent line not added again), and an
offset `back` into it from the most recent end (`HistModel`). The ring of
`TERM_MAXHIST` slots holds the last lines of `H`: `index` is `|H|` modulo 32,
the slot `s` holds the line `(index + 31 - s) % 32` places before the most
recent one, and `cp` is `back` slots before `index` (`HistRel`). Every call
keeps the relation and answers as the list does (`historyPrevious_rel`,
`historyNext_rel`, `historyAdd_rel`, `historyPrint_rel`), so every run from
`history_create` does (`history_refines_list`).

The slot at `index` holds the 32nd most recent line, which neither a recall
nor `history_print` reaches: the list offers 31 lines.
-/

namespace Chaconne.Cli

open CLib

@[simp] theorem TERM_MAXHIST_eq : TERM_MAXHIST = 32 := rfl

/-- The history as a list: the lines added, oldest first, and how far the
recall has stepped back from the most recent one. -/
structure HistModel where
  lines : List (List UInt8)
  back : Nat

namespace HistModel

/-- No line yet. -/
def empty : HistModel := ⟨[], 0⟩

/-- An added line: an empty one is ignored, a repeat of the most recent one
only ends the recall. -/
def add (m : HistModel) (line : List UInt8) : HistModel :=
  if line = [] then m
  else if m.lines.getLast? = some line then { m with back := 0 }
  else ⟨m.lines ++ [line], 0⟩

/-- One line further back: the `back + 1`-th most recent, as far as 31 lines
back. -/
def previous (m : HistModel) : Option (List UInt8) × HistModel :=
  if m.back < min m.lines.length (TERM_MAXHIST - 1) then
    (m.lines.reverse[m.back]?, { m with back := m.back + 1 })
  else (none, m)

/-- One line forward: none at the end, the empty line from the most recent
line, else the `back - 1`-th most recent. -/
def next (m : HistModel) : Option (List UInt8) × HistModel :=
  if m.back = 0 then (none, m)
  else if m.back = 1 then (some [], { m with back := 0 })
  else (m.lines.reverse[m.back - 2]?, { m with back := m.back - 1 })

/-- The lines a listing shows: the 31 most recent, oldest first. -/
def printed (m : HistModel) : List (List UInt8) :=
  m.lines.drop (m.lines.length - (TERM_MAXHIST - 1))

end HistModel

/-- The ring of 32 slots holds the list. -/
structure HistRel (h : History) (m : HistModel) : Prop where
  length : h.buf.length = 32
  index : h.index = m.lines.length % 32
  back : m.back ≤ min m.lines.length 31
  cp : h.cp = (h.index + 32 - m.back) % 32
  slot : ∀ s < 32, h.buf.getD s none = m.lines.reverse[(h.index + 31 - s) % 32]?
  nulFree : ∀ l ∈ m.lines, NulFree l

theorem historyCreate_rel : HistRel historyCreate HistModel.empty where
  length := by simp [historyCreate]
  index := rfl
  back := by simp [HistModel.empty]
  cp := rfl
  slot := by
    intro s hs
    rw [historyCreate, List.getD_eq_getElem?_getD, List.getElem?_replicate,
      if_pos (show s < TERM_MAXHIST from hs)]
    rfl
  nulFree := by simp [HistModel.empty]

variable {h : History} {m : HistModel}

theorem HistRel.index_lt (hr : HistRel h m) : h.index < 32 := by
  rw [hr.index]
  exact Nat.mod_lt _ (by decide)

/-! ## Recall -/

/-- `history_previous` steps back exactly as the list does. -/
theorem historyPrevious_rel (hr : HistRel h m) :
    (historyPrevious h).1 = m.previous.1 ∧ HistRel (historyPrevious h).2 m.previous.2 := by
  have hT : TERM_MAXHIST = 32 := rfl
  have hI := hr.index_lt
  have hb := hr.back
  have hcp := hr.cp
  -- the slot before `cp` holds the line `back` places before the most recent
  have htry : (if h.cp = 0 then TERM_MAXHIST - 1 else h.cp - 1) =
      (h.index + 31 - m.back) % 32 := by
    split_ifs <;> omega
  have hslot : h.buf.getD ((h.index + 31 - m.back) % 32) none = m.lines.reverse[m.back]? := by
    rw [hr.slot _ (by omega)]
    congr 1
    omega
  unfold historyPrevious HistModel.previous
  dsimp only
  rw [htry]
  by_cases h31 : m.back = 31
  · -- the oldest slot is never reached
    rw [if_pos (by omega), if_neg (by omega)]
    exact ⟨rfl, hr⟩
  · rw [if_neg (by omega), hslot]
    by_cases hn : m.back < m.lines.length
    · obtain ⟨line, hline⟩ : ∃ line, m.lines.reverse[m.back]? = some line :=
        ⟨_, List.getElem?_eq_getElem (by simpa using hn)⟩
      rw [hline, if_pos (by omega)]
      exact ⟨rfl, ⟨hr.length, hr.index, by dsimp only; omega, by dsimp only; omega, hr.slot,
        hr.nulFree⟩⟩
    · rw [List.getElem?_eq_none (by simpa using hn), if_neg (by omega)]
      exact ⟨rfl, hr⟩

/-- `history_next` steps forward exactly as the list does. -/
theorem historyNext_rel (hr : HistRel h m) :
    (historyNext h).1 = m.next.1 ∧ HistRel (historyNext h).2 m.next.2 := by
  have hT : TERM_MAXHIST = 32 := rfl
  have hI := hr.index_lt
  have hb := hr.back
  have hcp := hr.cp
  unfold historyNext HistModel.next
  by_cases h0 : m.back = 0
  · rw [if_pos (by omega), if_pos h0]
    exact ⟨rfl, hr⟩
  · rw [if_neg (by omega), if_neg h0]
    dsimp only
    -- the slot after `cp` holds the line `back - 2` places before the most recent
    have htry : (if h.cp = TERM_MAXHIST - 1 then 0 else h.cp + 1) =
        (h.index + 33 - m.back) % 32 := by
      split_ifs <;> omega
    rw [htry]
    by_cases h1 : m.back = 1
    · rw [if_pos (by omega), if_pos h1]
      exact ⟨rfl, ⟨hr.length, hr.index, by dsimp only; omega, by dsimp only; omega, hr.slot,
        hr.nulFree⟩⟩
    · rw [if_neg (by omega), if_neg h1]
      have hslot : h.buf.getD ((h.index + 33 - m.back) % 32) none =
          m.lines.reverse[m.back - 2]? := by
        rw [hr.slot _ (by omega)]
        congr 1
        omega
      obtain ⟨line, hline⟩ : ∃ line, m.lines.reverse[m.back - 2]? = some line :=
        ⟨_, List.getElem?_eq_getElem (by simp; omega)⟩
      rw [hslot, hline]
      exact ⟨rfl, ⟨hr.length, hr.index, by dsimp only; omega, by dsimp only; omega, hr.slot,
        hr.nulFree⟩⟩

/-! ## Adding a line -/

/-- The most recent line is in the slot before `index`. -/
theorem HistRel.prev_slot (hr : HistRel h m) :
    h.buf.getD (if h.index ≠ 0 then h.index - 1 else TERM_MAXHIST - 1) none = m.lines.getLast? := by
  have hT : TERM_MAXHIST = 32 := rfl
  have hI := hr.index_lt
  have h0 : (h.index + 31 - if h.index ≠ 0 then h.index - 1 else TERM_MAXHIST - 1) % 32 = 0 := by
    split_ifs <;> omega
  rw [hr.slot _ (by split_ifs <;> omega), h0, ← List.head?_eq_getElem?, List.head?_reverse]

/-- A line stored at `index`: the ring holds the longer list. -/
theorem HistRel.store (hr : HistRel h m) {line : List UInt8} (hl : NulFree line) :
    HistRel ⟨h.buf.set h.index (some line),
      if h.index + 1 = TERM_MAXHIST then 0 else h.index + 1,
      if h.index + 1 = TERM_MAXHIST then 0 else h.index + 1⟩ ⟨m.lines ++ [line], 0⟩ := by
  have hT : TERM_MAXHIST = 32 := rfl
  have hI := hr.index_lt
  have hidx := hr.index
  have hnext : (if h.index + 1 = TERM_MAXHIST then 0 else h.index + 1) =
      (m.lines.length + 1) % 32 := by
    split_ifs <;> omega
  refine ⟨by simpa using hr.length, ?_, by simp, ?_, ?_, ?_⟩
  · dsimp only
    rw [hnext, List.length_append, List.length_singleton]
  · dsimp only
    rw [hnext]
    omega
  · intro s hs
    dsimp only
    rw [getD_set_of_lt _ (by rw [hr.length]; exact hI), List.reverse_append,
      List.reverse_singleton, List.singleton_append, hnext]
    by_cases hsI : s = h.index
    · -- the new line is the most recent
      rw [if_pos hsI, show ((m.lines.length + 1) % 32 + 31 - s) % 32 = 0 by omega]
      rfl
    · -- every other line is one place further back
      rw [if_neg hsI, hr.slot s hs,
        show ((m.lines.length + 1) % 32 + 31 - s) % 32 = (h.index + 31 - s) % 32 + 1 by omega]
      rfl
  · intro l hl'
    rcases List.mem_append.mp hl' with hm | hm
    · exact hr.nulFree l hm
    · rw [List.mem_singleton.mp hm]
      exact hl

/-- `history_add` of a C string adds it to the list as the list does. -/
theorem historyAdd_rel (hr : HistRel h m) {line : List UInt8} (hl : NulFree line) :
    HistRel (historyAdd h line) (m.add line) := by
  have hT : TERM_MAXHIST = 32 := rfl
  have hI := hr.index_lt
  unfold historyAdd HistModel.add
  by_cases hnil : line = []
  · rw [if_pos hnil, if_pos hnil]
    exact hr
  rw [if_neg hnil, if_neg hnil]
  dsimp only
  rw [hr.prev_slot]
  -- the repeat test compares with the most recent line
  cases hlast : m.lines.getLast? with
  | none =>
    rw [if_neg (by simp)]
    exact hr.store hl
  | some last =>
    have hlastFree : NulFree last := hr.nulFree last (List.mem_of_getLast? hlast)
    dsimp only
    by_cases heq : line = last
    · subst heq
      rw [if_pos (show (strcmp line line == 0) = true by simp),
        if_pos rfl]
      exact ⟨hr.length, hr.index, by simp, by dsimp only; omega, hr.slot, hr.nulFree⟩
    · rw [if_neg (show ¬ (strcmp line last == 0) = true by simp [strcmp_eq_zero_iff hl hlastFree, heq]),
        if_neg (show ¬ some last = some line by simp [Ne.symm heq])]
      exact hr.store hl

/-! ## The listing -/

/-- `history_print` from a slot `k` places before the most recent one: the
lines from there to the most recent, given fuel for the slots and for the wrap
from the last slot to the first when it is ahead. -/
theorem historyPrintLoop_rel (hr : HistRel h m) :
    ∀ (k fuel index : Nat), index < 32 → index ≠ h.index →
      (h.index + 31 - index) % 32 = k → k + 1 ≤ fuel → (h.index < index → k + 2 ≤ fuel) →
      historyPrintLoop h fuel index =
        ((List.range (k + 1)).reverse.map fun a => historyLine m.lines.reverse[a]?).flatten := by
  have hT : TERM_MAXHIST = 32 := rfl
  have hI := hr.index_lt
  intro k
  induction k with
  | zero =>
    -- the slot just before `index`: the loop ends there, after at most a wrap
    intro fuel index hidx hne hk hfuel hwrap
    obtain ⟨fuel, rfl⟩ : ∃ f, fuel = f + 1 := ⟨fuel - 1, by omega⟩
    rw [historyPrintLoop, if_neg hne, if_neg (by omega), hr.slot index hidx, hk]
    have hend : historyPrintLoop h fuel (index + 1) = [] := by
      cases fuel with
      | zero => rfl
      | succ fuel =>
        by_cases hw : index + 1 = h.index
        · rw [historyPrintLoop, if_pos hw]
        · rw [historyPrintLoop, if_neg hw, if_pos (by omega)]
          cases fuel with
          | zero => rfl
          | succ fuel => rw [historyPrintLoop, if_pos (by omega)]
    rw [hend]
    simp
  | succ k ih =>
    intro fuel index hidx hne hk hfuel hwrap
    obtain ⟨fuel, rfl⟩ : ∃ f, fuel = f + 1 := ⟨fuel - 1, by omega⟩
    rw [historyPrintLoop, if_neg hne, if_neg (by omega), hr.slot index hidx, hk,
      List.range_succ, List.reverse_append, List.reverse_singleton, List.singleton_append,
      List.map_cons, List.flatten_cons]
    congr 1
    by_cases hlast : index + 1 = TERM_MAXHIST
    · -- past the last slot, round to slot 0
      obtain ⟨fuel, rfl⟩ : ∃ f, fuel = f + 1 := ⟨fuel - 1, by omega⟩
      rw [historyPrintLoop, if_neg (by omega), if_pos hlast]
      exact ih fuel 0 (by omega) (by omega) (by omega) (by omega) (by omega)
    · exact ih fuel (index + 1) (by omega) (by omega) (by omega) (by omega) (by omega)

/-- `history_print` lists the 31 most recent lines, oldest first. -/
theorem historyPrint_rel (hr : HistRel h m) :
    historyPrint h = m.printed.flatMap fun l => historyLine (some l) := by
  have hT : TERM_MAXHIST = 32 := rfl
  have hI := hr.index_lt
  have hall : ((List.range (30 + 1)).reverse.map fun a => historyLine m.lines.reverse[a]?).flatten =
      m.printed.flatMap fun l => historyLine (some l) :=
    flatten_map_range_reverse m.lines historyLine rfl 31
  unfold historyPrint
  rw [← hall]
  by_cases hlast : h.index + 1 = TERM_MAXHIST
  · -- `index` is the last slot: the loop starts by wrapping round
    rw [show TERM_MAXHIST + 1 = 32 + 1 by omega, historyPrintLoop, if_neg (by omega), if_pos hlast]
    exact historyPrintLoop_rel hr 30 _ 0 (by omega) (by omega) (by omega) (by omega) (by omega)
  · exact historyPrintLoop_rel hr 30 _ (h.index + 1) (by omega) (by omega) (by omega) (by omega)
      (by omega)

/-! ## Runs -/

/-! ## The lines a recall returns -/

namespace HistModel

theorem previous_lines (m : HistModel) : m.previous.2.lines = m.lines := by
  unfold previous
  split_ifs <;> rfl

theorem next_lines (m : HistModel) : m.next.2.lines = m.lines := by
  unfold next
  split_ifs <;> rfl

/-- A line stepped back to is one of the lines added. -/
theorem mem_of_previous {m : HistModel} {line : List UInt8} (h : m.previous.1 = some line) :
    line ∈ m.lines := by
  unfold previous at h
  split_ifs at h
  exact List.mem_reverse.mp (List.mem_of_getElem? h)

/-- A line stepped forward to is the empty line or one of the lines added. -/
theorem mem_of_next {m : HistModel} {line : List UInt8} (h : m.next.1 = some line) :
    line = [] ∨ line ∈ m.lines := by
  unfold next at h
  split_ifs at h
  · exact .inl (Option.some.inj h).symm
  · exact .inr (List.mem_reverse.mp (List.mem_of_getElem? h))

theorem mem_add {m : HistModel} {line l : List UInt8} (h : l ∈ (m.add line).lines) :
    l ∈ m.lines ∨ l = line := by
  unfold add at h
  split_ifs at h
  · exact .inl h
  · exact .inl h
  · rcases List.mem_append.mp h with h | h
    · exact .inl h
    · exact .inr (List.mem_singleton.mp h)

end HistModel

/-- A call on the history. -/
inductive HistOp
  | add (line : List UInt8)
  | previous
  | next

/-- One call on the ring. -/
def histStep (h : History) : HistOp → History
  | .add line => historyAdd h line
  | .previous => (historyPrevious h).2
  | .next => (historyNext h).2

/-- One call on the list. -/
def HistModel.step (m : HistModel) : HistOp → HistModel
  | .add line => m.add line
  | .previous => m.previous.2
  | .next => m.next.2

/-- A line added is a C string. -/
def HistOp.LineOk : HistOp → Prop
  | .add line => NulFree line
  | _ => True

instance : DecidablePred HistOp.LineOk := fun op => by
  cases op <;> unfold HistOp.LineOk <;> infer_instance

theorem histStep_rel {h : History} {m : HistModel} {op : HistOp} (hop : op.LineOk)
    (hr : HistRel h m) : HistRel (histStep h op) (m.step op) := by
  cases op with
  | add line => exact historyAdd_rel hr hop
  | previous => exact (historyPrevious_rel hr).2
  | next => exact (historyNext_rel hr).2

/-- From `history_create`, after any calls adding C strings: the ring holds
the list of lines added (empty lines ignored, a repeat of the most recent one
not added), and from there `history_previous`, `history_next` and
`history_add` answer and move as the list does, and `history_print` lists the
31 most recent lines, oldest first. -/
theorem history_refines_list (ops : List HistOp) (hops : ∀ op ∈ ops, op.LineOk) :
    let h := ops.foldl histStep historyCreate
    let m := ops.foldl HistModel.step HistModel.empty
    HistRel h m ∧
      ((historyPrevious h).1 = m.previous.1 ∧ HistRel (historyPrevious h).2 m.previous.2) ∧
      ((historyNext h).1 = m.next.1 ∧ HistRel (historyNext h).2 m.next.2) ∧
      (∀ line, NulFree line → HistRel (historyAdd h line) (m.add line)) ∧
      historyPrint h = m.printed.flatMap fun l => historyLine (some l) := by
  intro h m
  have hstep : ∀ (s : History) (t : HistModel) (op : HistOp), op.LineOk → HistRel s t →
      HistRel (histStep s op) (t.step op) := fun _ _ _ hop hr => histStep_rel hop hr
  have hr : HistRel h m := foldl_related hstep ops _ _ hops historyCreate_rel
  exact ⟨hr, historyPrevious_rel hr, historyNext_rel hr, fun _ hl => historyAdd_rel hr hl,
    historyPrint_rel hr⟩

theorem history_refines_list_repeat :
    let ops := [HistOp.add (bytesOf "ls"), .add (bytesOf "ls"), .add (bytesOf "pwd"), .previous,
      .previous, .next]
    (∀ op ∈ ops, op.LineOk) ∧
      HistRel (ops.foldl histStep historyCreate) (ops.foldl HistModel.step HistModel.empty) :=
  ⟨by decide, (history_refines_list _ (by decide)).1⟩

end Chaconne.Cli
