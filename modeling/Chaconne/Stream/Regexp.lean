import Chaconne.Stream.Spec
import Chaconne.CLib.Lists
import Chaconne.CLib.CString

/-!
# `stream_flush_regexp`: the `| include REGEX` filter

`stream_flush_regexp` compiles the pattern with `lre_compile` and then takes
the stream one byte at a time with `stream_get(s, &c, 1)`, collecting a line
in `char line[8192]` until a `\r` or `\n`; a non-empty line goes to `lre_exec`
and is written, with `"\r\n"`, when that returns 1. What is left at the end is
tried once more and written without `"\r\n"`. The compiled pattern and
`lre_exec` are parameters (`lre_compile`'s result and a function of the
compiled pattern and the line).

`*ptr++ = c` never compares `ptr` with the end of `line`. The model keeps the
whole line and records the furthest `ptr - line` the loop reaches (`peak`).

The loop takes the queue byte by byte (`filterLoop_eq_foldl`), and over any
content the bytes written are the matching maximal segments between line
ends, in order, and `peak` is the length of the longest segment
(`stream_filter_lines`): a segment of more than 8192 bytes is stored past the
end of `line` (`flush_regexp_line_overflow`).
-/

namespace Chaconne

open CLib

/-- A `\r` or `\n` byte, which ends a line of the filter. -/
def isLineEnd (c : UInt8) : Bool :=
  c == 13 || c == 10

/-- The loop's state: `line[0..ptr)`, the bytes written to `fd`, and the
furthest `ptr - line` reached so far. -/
structure FilterState where
  line : List UInt8
  out : List UInt8
  peak : Nat

/-- What is written for a line on which `lre_exec` returned `ret`: the line,
and `"\r\n"` when a line end closed it, on 1; the message on -1. -/
def execWrite (ret : Int) (line : List UInt8) (crlf : Bool) : List UInt8 :=
  if ret = 1 then line ++ (if crlf then [13, 10] else [])
  else if ret = -1 then bytesOf "lre_exec returns -1\n"
  else []

/-- The body of the loop for the byte `c` that `stream_get` returned. -/
def filterByte (exec : List UInt8 → Int) (st : FilterState) (c : UInt8) : FilterState :=
  if isLineEnd c then
    -- an empty line is skipped (`continue`)
    if st.line = [] then st
    else { st with line := [], out := st.out ++ execWrite (exec st.line) st.line true }
  else { st with line := st.line ++ [c], peak := max st.peak (st.line.length + 1) }

/-- `while (stream_get(s, &c, 1) == 1)`, for at most `fuel` rounds. -/
def filterLoop (exec : List UInt8 → Int) : Nat → Stream → FilterState → Stream × FilterState
  | 0, s, st => (s, st)
  | fuel + 1, s, st =>
    let r := streamGet s 1
    if r.1 = 1 then filterLoop exec fuel r.2.2 (filterByte exec st (r.2.1.headD 0))
    else (r.2.2, st)

/-- `stream_flush_regexp(s, fd, regexp, rlen)`: the return value, the bytes
written to `fd`, the stream, and the furthest `ptr - line`. `compiled` is what
`lre_compile` gives: the program, or the text of `error_msg`. -/
def streamFlushRegexp {ρ : Type} (compiled : Except (List UInt8) ρ) (exec : ρ → List UInt8 → Int)
    (s : Stream) : Int × List UInt8 × Stream × Nat :=
  match compiled with
  | .error msg =>
    -- `snprintf` into `char buf[128]`
    (-1, (bytesOf "lre_compile error: " ++ msg ++ bytesOf "\n").take 127, streamConsume s s.count, 0)
  | .ok bc =>
    let r := filterLoop (exec bc) (s.count + 1) s ⟨[], [], 0⟩
    let out := if r.2.line ≠ [] then r.2.out ++ execWrite (exec bc r.2.line) r.2.line false
      else r.2.out
    (0, out, r.1, r.2.peak)

/-! ## The loop is a fold over the queue -/

/-- **Run lemma of the stream side.** With more fuel than bytes, the loop
reads the whole queue one byte at a time and leaves the stream empty. -/
theorem filterLoop_eq_foldl (exec : List UInt8 → Int) :
    ∀ (fuel : Nat) (s : Stream) (st : FilterState), StreamInv s → s.queue.length < fuel →
      (filterLoop exec fuel s st).2 = s.queue.foldl (filterByte exec) st ∧
        StreamInv (filterLoop exec fuel s st).1 ∧ (filterLoop exec fuel s st).1.queue = []
  | 0, _, _, _, hfuel => absurd hfuel (Nat.not_lt_zero _)
  | fuel + 1, s, st, hs, hfuel => by
    obtain ⟨hret, hbytes, hinv, hqueue⟩ := streamGet_of_lt hs (c := 1)
      (lt_of_le_of_lt (Nat.min_le_left _ _) (by norm_num))
    cases hq : s.queue with
    | nil =>
      -- `stream_get` returns 0 on an empty stream
      rw [hq] at hret hqueue
      have hstop : (streamGet s 1).1 ≠ 1 := by rw [hret]; decide
      have hloop : filterLoop exec (fuel + 1) s st = ((streamGet s 1).2.2, st) := by
        simp only [filterLoop, if_neg hstop]
      rw [hloop]
      exact ⟨rfl, hinv, hqueue⟩
    | cons c q =>
      rw [hq] at hret hbytes hqueue
      have hone : (streamGet s 1).1 = 1 := by rw [hret]; rfl
      have hc : (streamGet s 1).2.1.headD 0 = c := by rw [hbytes]; rfl
      have hlen : (streamGet s 1).2.2.queue.length < fuel := by
        rw [hqueue, List.drop_one, List.tail_cons]
        rw [hq, List.length_cons] at hfuel
        omega
      have ih := filterLoop_eq_foldl exec fuel _ (filterByte exec st c) hinv hlen
      rw [hqueue, List.drop_one, List.tail_cons] at ih
      have hloop : filterLoop exec (fuel + 1) s st =
          filterLoop exec fuel (streamGet s 1).2.2 (filterByte exec st c) := by
        simp only [filterLoop, if_pos hone, hc]
      rw [hloop, List.foldl_cons]
      exact ih

/-! ## What the fold writes -/

/-- **Step and run of the line side.** From a line without line ends, the fold
over `q` leaves the last part of `line ++ q` split at line ends as the line,
writes every earlier non-empty part as `lre_exec` decides, and reaches as far
as the longest part. -/
theorem foldl_filterByte (exec : List UInt8 → Int) :
    ∀ (q : List UInt8) (st : FilterState), (∀ c ∈ st.line, isLineEnd c = false) →
      st.line.length ≤ st.peak →
      (q.foldl (filterByte exec) st).line = ((st.line ++ q).splitOnP isLineEnd).getLast?.getD [] ∧
        (q.foldl (filterByte exec) st).out = st.out ++
          ((((st.line ++ q).splitOnP isLineEnd).dropLast.filter fun l => !l.isEmpty).flatMap
            fun l => execWrite (exec l) l true) ∧
        (q.foldl (filterByte exec) st).peak =
          max st.peak (maxLength ((st.line ++ q).splitOnP isLineEnd))
  | [], st, hline, hpeak => by
    rw [List.append_nil, List.splitOnP_eq_singleton hline]
    refine ⟨rfl, by simp, ?_⟩
    simp only [List.foldl_nil, maxLength_cons, maxLength_nil]
    omega
  | c :: q, st, hline, hpeak => by
    obtain ⟨p, ps, hps⟩ := List.exists_cons_of_ne_nil (List.splitOnP_ne_nil isLineEnd q)
    by_cases hc : isLineEnd c = true
    · -- the line ends: `line` is a part of its own, and the fold goes on from `[]`
      have hsplit : (st.line ++ c :: q).splitOnP isLineEnd = st.line :: q.splitOnP isLineEnd :=
        List.splitOnP_append_cons_of_forall_mem hline c hc q
      have hstep : filterByte exec st c =
          ⟨[], st.out ++ (if st.line.isEmpty then [] else execWrite (exec st.line) st.line true),
            st.peak⟩ := by
        by_cases he : st.line = []
        · simp only [filterByte, hc, he, if_true, List.isEmpty_nil, List.append_nil]
          cases st
          simp_all
        · simp [filterByte, hc, he]
      obtain ⟨hl, ho, hp⟩ := foldl_filterByte exec q (filterByte exec st c)
        (by simp [hstep]) (by simp [hstep])
      simp only [hstep, List.nil_append] at hl ho hp
      rw [List.foldl_cons, hstep, hsplit, hps]
      rw [hps] at hl ho hp
      refine ⟨by rw [hl, List.getLast?_cons_cons], ?_, ?_⟩
      · rw [ho, List.dropLast_cons_of_ne_nil (List.cons_ne_nil _ _), List.filter_cons,
          List.append_assoc]
        cases st.line.isEmpty <;> simp
      · rw [hp]
        simp only [maxLength_cons] at hpeak ⊢
        omega
    · -- the byte joins the line, and the parts of `line ++ c :: q` stay as they are
      have hc' : isLineEnd c = false := by simpa using hc
      have hstep : filterByte exec st c =
          { st with line := st.line ++ [c], peak := max st.peak (st.line.length + 1) } := by
        simp [filterByte, hc']
      have hline' : ∀ d ∈ st.line ++ [c], isLineEnd d = false := by
        intro d hd
        rcases List.mem_append.mp hd with hd | hd
        · exact hline d hd
        · rw [List.mem_singleton.mp hd]
          exact hc'
      obtain ⟨hl, ho, hp⟩ := foldl_filterByte exec q (filterByte exec st c)
        (by rw [hstep]; exact hline') (by rw [hstep]; simp)
      rw [hstep, List.append_assoc, List.singleton_append] at hl ho hp
      rw [List.foldl_cons, hstep]
      refine ⟨hl, ho, ?_⟩
      -- the first part holds the line and `c`, so it is at least as long
      have hfirst : st.line.length + 1 ≤ maxLength ((st.line ++ c :: q).splitOnP isLineEnd) := by
        rw [← List.singleton_append, ← List.append_assoc,
          CLib.splitOnP_append_of_forall isLineEnd q hline', hps, List.modifyHead_cons,
          maxLength_cons, List.length_append, List.length_append, List.length_singleton]
        omega
      rw [hp]
      dsimp only
      omega

/-! ## The whole call -/

/-- **`stream_flush_regexp`** with a compiled pattern, on any stream: it
returns 0 and empties the stream; it writes, for each non-empty segment a line
end closes, what `lre_exec` decides, and then the same for the last segment
without `"\r\n"`; and it stores as far into `line` as the longest segment. -/
theorem streamFlushRegexp_ok {ρ : Type} (bc : ρ) (exec : ρ → List UInt8 → Int) {s : Stream}
    (hs : StreamInv s) :
    let r := streamFlushRegexp (.ok bc) exec s
    let last := (s.queue.splitOnP isLineEnd).getLast?.getD []
    r.1 = 0 ∧ StreamInv r.2.2.1 ∧ r.2.2.1.queue = [] ∧
      r.2.1 = (((s.queue.splitOnP isLineEnd).dropLast.filter fun l => !l.isEmpty).flatMap
          fun l => execWrite (exec bc l) l true) ++
        (if last ≠ [] then execWrite (exec bc last) last false else []) ∧
      r.2.2.2 = maxLength (s.queue.splitOnP isLineEnd) := by
  intro r last
  have hfuel : s.queue.length < s.count + 1 := by
    rw [hs.count]
    omega
  obtain ⟨hfold, hinv, hempty⟩ := filterLoop_eq_foldl (exec bc) (s.count + 1) s ⟨[], [], 0⟩ hs hfuel
  obtain ⟨hl, ho, hp⟩ := foldl_filterByte (exec bc) s.queue ⟨[], [], 0⟩ (by simp) (by simp)
  simp only [List.nil_append] at hl ho hp
  refine ⟨rfl, hinv, hempty, ?_, ?_⟩
  · -- the line left after the loop is the last segment
    show (if (filterLoop (exec bc) (s.count + 1) s ⟨[], [], 0⟩).2.line ≠ [] then _ else _) = _
    rw [hfold, hl, ho]
    by_cases hlast : last = []
    · simp [last, hlast]
    · simp [last, hlast]
  · show (filterLoop (exec bc) (s.count + 1) s ⟨[], [], 0⟩).2.peak = _
    rw [hfold, hp]
    omega

/-- What the filter is for: the non-empty maximal segments of `q` between
line ends that match, in order, each one a line end closes followed by
`"\r\n"`. -/
def filteredOutput (isMatch : List UInt8 → Bool) (q : List UInt8) : List UInt8 :=
  let last := (q.splitOnP isLineEnd).getLast?.getD []
  (((q.splitOnP isLineEnd).dropLast.filter fun l => !l.isEmpty && isMatch l).flatMap
      (· ++ [13, 10])) ++
    (if !last.isEmpty && isMatch last then last else [])

/-- With `lre_exec` answering 0 or 1, a closed line is written with `"\r\n"`
exactly when it matches. -/
theorem flatMap_execWrite {exec : List UInt8 → Int} (hexec : ∀ l, exec l = 0 ∨ exec l = 1) :
    ∀ ls : List (List UInt8),
      ((ls.filter fun l => !l.isEmpty).flatMap fun l => execWrite (exec l) l true) =
        (ls.filter fun l => !l.isEmpty && exec l == 1).flatMap (· ++ [13, 10])
  | [] => rfl
  | l :: ls => by
    have ih := flatMap_execWrite hexec ls
    have hw : execWrite (exec l) l true = if exec l == 1 then l ++ [13, 10] else [] := by
      rcases hexec l with h | h <;> simp [execWrite, h]
    cases he : l.isEmpty <;> cases hm : (exec l == 1) <;> simp [he, hm, hw, ih]

/-- **The filter.** With a compiled pattern and `lre_exec` answering 0 or 1,
`stream_flush_regexp` consumes the whole stream, writes exactly the matching
segments, and stores into `line` as many bytes as the longest segment has. -/
theorem stream_filter_lines {ρ : Type} (bc : ρ) (exec : ρ → List UInt8 → Int) {s : Stream}
    (hs : StreamInv s) (hexec : ∀ l, exec bc l = 0 ∨ exec bc l = 1) :
    let r := streamFlushRegexp (.ok bc) exec s
    r.1 = 0 ∧ StreamInv r.2.2.1 ∧ r.2.2.1.queue = [] ∧
      r.2.1 = filteredOutput (fun l => exec bc l == 1) s.queue ∧
      r.2.2.2 = maxLength (s.queue.splitOnP isLineEnd) := by
  obtain ⟨hret, hinv, hempty, hout, hpeak⟩ := streamFlushRegexp_ok bc exec hs
  refine ⟨hret, hinv, hempty, ?_, hpeak⟩
  rw [hout, flatMap_execWrite hexec, filteredOutput]
  congr 1
  -- the last segment
  rcases hexec ((s.queue.splitOnP isLineEnd).getLast?.getD []) with h | h <;>
    by_cases he : (s.queue.splitOnP isLineEnd).getLast?.getD [] = [] <;> simp [execWrite, h, he]

theorem stream_filter_lines_ab :
    let s := (streamPut streamNew 1 [97, 98, 10, 99]).2
    let exec : Unit → List UInt8 → Int := fun _ l => if l = [97, 98] then 1 else 0
    let r := streamFlushRegexp (.ok ()) exec s
    StreamInv s ∧ (∀ l, exec () l = 0 ∨ exec () l = 1) ∧
      r.1 = 0 ∧ StreamInv r.2.2.1 ∧ r.2.2.1.queue = [] ∧
        r.2.1 = filteredOutput (fun l => exec () l == 1) s.queue ∧
        r.2.2.2 = maxLength (s.queue.splitOnP isLineEnd) := by
  intro s exec r
  have hs : StreamInv s := (streamPut_spec streamNew_inv 1 (by decide)).1
  have hexec : ∀ l, exec () l = 0 ∨ exec () l = 1 := fun l => by
    by_cases h : l = [97, 98] <;> simp [exec, h]
  exact ⟨hs, hexec, stream_filter_lines () exec hs hexec⟩

/-- A stream holding 8193 bytes `a` and no line end: the loop stores all of
them into `line`, one past its 8192 bytes. -/
theorem flush_regexp_line_overflow {ρ : Type} (bc : ρ) (exec : ρ → List UInt8 → Int) {s : Stream}
    (hs : StreamInv s) (hq : s.queue = List.replicate 8193 97) :
    8192 < (streamFlushRegexp (.ok bc) exec s).2.2.2 := by
  have hpeak := (streamFlushRegexp_ok bc exec hs).2.2.2.2
  have hnone : ∀ c ∈ List.replicate 8193 (97 : UInt8), isLineEnd c = false := by
    intro c hc
    rw [(List.mem_replicate.mp hc).2]
    rfl
  rw [hpeak, hq, List.splitOnP_eq_singleton hnone, maxLength_cons, maxLength_nil,
    List.length_replicate]
  omega

/-- Three nodes of 4096, 4096 and 1 bytes `a`. -/
theorem flush_regexp_line_overflow_three_nodes :
    let s : Stream := ⟨[⟨List.replicate 4096 97, 0⟩, ⟨List.replicate 4096 97, 0⟩, ⟨[97], 0⟩],
      some 2, 8193⟩
    StreamInv s ∧ s.queue = List.replicate 8193 97 ∧
      8192 < (streamFlushRegexp (.ok ()) (fun _ _ => 0) s).2.2.2 := by
  intro s
  have hq : s.queue = List.replicate 8193 97 := by
    show chainBytes s.nodes = _
    simp only [s, chainBytes, List.flatMap_cons, List.flatMap_nil, StreamNode.bytes, List.drop_zero,
      List.append_nil]
    rw [show (8193 : Nat) = 4096 + (4096 + 1) from rfl, List.replicate_add, List.replicate_add]
    rfl
  have hs : StreamInv s := by
    refine ⟨⟨?_, ?_, ?_⟩, rfl, ?_⟩
    · intro n hn
      simp only [s, List.dropLast_cons_cons, List.dropLast_singleton, List.mem_cons,
        List.not_mem_nil, or_false] at hn
      rcases hn with rfl | rfl <;> exact List.length_replicate
    · intro n hn
      simp only [s, List.mem_cons, List.not_mem_nil, or_false] at hn
      rcases hn with rfl | rfl | rfl <;>
        simp only [StreamNode.head, List.length_replicate, List.length_singleton, BUFSIZE] <;> omega
    · intro n hn
      simp only [s, List.tail_cons, List.mem_cons, List.not_mem_nil, or_false] at hn
      rcases hn with rfl | rfl <;> rfl
    · rw [hq, List.length_replicate]
  exact ⟨hs, hq, flush_regexp_line_overflow () (fun _ _ => 0) hs hq⟩

end Chaconne
