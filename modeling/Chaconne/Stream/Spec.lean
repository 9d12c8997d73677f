import Chaconne.Stream.Basic
import Chaconne.CLib.Lists

/-!
# The stream holds a byte queue

A stream stands for the bytes its nodes still hold, first node first
(`Stream.queue`). It keeps `StreamInv`: every node but the last is full, every
node but the first starts at offset 0, `last` points to the last node, and
`count` is the length of the queue.

Each operation keeps the invariant and acts on the queue as a FIFO does:

* `streamPut_spec` — `stream_put` appends its bytes, or fails with `-ENOMEM`
  and the stream as it was; the loop that copies the bytes is
  `putFill_spec`, whose node count is the exact `putNodeCount_toNat`;
* `streamConsume_spec` — `stream_consume` drops the first bytes;
* `streamGet_spec` — `stream_get` copies out the first bytes and drops as
  many as its `int` return value says;
* `streamIovec_flatten`, `streamFlush_spec` — the iovecs cover the queue, and
  a flush drops what `writev` wrote.
-/

namespace Chaconne

open CLib

/-- The bytes a node still holds: `data[tail..head)`. -/
def StreamNode.bytes (n : StreamNode) : List UInt8 := n.data.drop n.tail

/-- The bytes a chain holds, in order. -/
def chainBytes (nodes : List StreamNode) : List UInt8 := nodes.flatMap StreamNode.bytes

/-- The byte queue a stream stands for. -/
def Stream.queue (s : Stream) : List UInt8 := chainBytes s.nodes

@[simp] theorem chainBytes_nil : chainBytes [] = [] := rfl

@[simp] theorem chainBytes_cons (n : StreamNode) (nodes : List StreamNode) :
    chainBytes (n :: nodes) = n.bytes ++ chainBytes nodes := by
  simp [chainBytes]

@[simp] theorem chainBytes_append (l l' : List StreamNode) :
    chainBytes (l ++ l') = chainBytes l ++ chainBytes l' := by
  simp [chainBytes]

theorem length_bytes (n : StreamNode) : n.bytes.length = n.head - n.tail := by
  simp [StreamNode.bytes, StreamNode.head]

/-- The length of the queue is the sum of `head - tail` over the nodes. -/
theorem length_chainBytes (nodes : List StreamNode) :
    (chainBytes nodes).length = (nodes.map fun n => n.head - n.tail).sum := by
  induction nodes with
  | nil => rfl
  | cons n nodes ih => simp [length_bytes, ih]

/-! ## The invariant -/

/-- The shape of a chain: every node but the last is full, every node but the
first starts at offset 0, and `tail ≤ head ≤ BUFSIZE`. -/
structure ChainWf (nodes : List StreamNode) : Prop where
  full : ∀ n ∈ nodes.dropLast, n.head = BUFSIZE
  bound : ∀ n ∈ nodes, n.tail ≤ n.head ∧ n.head ≤ BUFSIZE
  tail_zero : ∀ n ∈ nodes.tail, n.tail = 0

/-- The invariant of a stream: a well-shaped chain, `last` at its last node
(`first` and `last` are `NULL` together), and `count` bytes in it. -/
structure StreamInv (s : Stream) : Prop where
  chain : ChainWf s.nodes
  last : s.last = if s.nodes = [] then none else some (s.nodes.length - 1)
  count : s.count = s.queue.length

theorem ChainWf.nil : ChainWf [] := ⟨by simp, by simp, by simp⟩

theorem ChainWf.singleton {n : StreamNode} (h : n.tail ≤ n.head ∧ n.head ≤ BUFSIZE) : ChainWf [n] :=
  ⟨by simp, by simpa using h, by simp⟩

theorem streamNew_inv : StreamInv streamNew := ⟨ChainWf.nil, rfl, rfl⟩

theorem ChainWf.tail {n : StreamNode} {nodes : List StreamNode} (h : ChainWf (n :: nodes)) :
    ChainWf nodes where
  full m hm := h.full m (by
    rcases nodes with _ | ⟨a, l⟩
    · simp at hm
    · exact List.mem_cons_of_mem n hm)
  bound m hm := h.bound m (List.mem_cons_of_mem n hm)
  tail_zero m hm := h.tail_zero m (List.mem_of_mem_tail hm)

/-- The first node of a chain may lose bytes at its front. -/
theorem ChainWf.consume_first {n : StreamNode} {nodes : List StreamNode} (h : ChainWf (n :: nodes))
    {t : Nat} (ht : t ≤ n.head) : ChainWf ({ n with tail := t } :: nodes) where
  full m hm := by
    rcases nodes with _ | ⟨a, l⟩
    · simp at hm
    · rcases List.mem_cons.mp hm with rfl | hm
      · exact h.full n (by simp)
      · exact h.full m (List.mem_cons_of_mem n hm)
  bound m hm := by
    rcases List.mem_cons.mp hm with rfl | hm
    · exact ⟨ht, (h.bound n List.mem_cons_self).2⟩
    · exact h.bound m (List.mem_cons_of_mem n hm)
  tail_zero m hm := h.tail_zero m hm

/-- The last node of a chain may gain bytes up to `BUFSIZE`. -/
theorem ChainWf.grow_last {pre : List StreamNode} {cur cur' : StreamNode}
    (h : ChainWf (pre ++ [cur])) (htail : cur'.tail = cur.tail) (hhead : cur.head ≤ cur'.head)
    (hcap : cur'.head ≤ BUFSIZE) : ChainWf (pre ++ [cur']) where
  full m hm := h.full m (by simpa using hm)
  bound m hm := by
    rcases List.mem_append.mp hm with hm | hm
    · exact h.bound m (List.mem_append_left _ hm)
    · obtain rfl := List.mem_singleton.mp hm
      have hb := h.bound cur (by simp)
      omega
  tail_zero m hm := by
    rcases pre with _ | ⟨a, pre⟩
    · simp at hm
    · simp only [List.cons_append, List.tail_cons, List.mem_append, List.mem_singleton] at hm
      rcases hm with hm | rfl
      · exact h.tail_zero m (by simp [hm])
      · rw [htail]
        exact h.tail_zero cur (by simp)

/-- A node starting at offset 0 may follow a full last node. -/
theorem ChainWf.push {pre : List StreamNode} {cur n : StreamNode} (h : ChainWf (pre ++ [cur]))
    (hfull : cur.head = BUFSIZE) (htail : n.tail = 0) (hcap : n.head ≤ BUFSIZE) :
    ChainWf (pre ++ [cur] ++ [n]) where
  full m hm := by
    rw [List.dropLast_concat] at hm
    rcases List.mem_append.mp hm with hm | hm
    · exact h.full m (by simpa using hm)
    · rw [List.mem_singleton.mp hm, hfull]
  bound m hm := by
    rcases List.mem_append.mp hm with hm | hm
    · exact h.bound m hm
    · obtain rfl := List.mem_singleton.mp hm
      omega
  tail_zero m hm := by
    rw [List.tail_append_of_ne_nil (by simp)] at hm
    rcases List.mem_append.mp hm with hm | hm
    · exact h.tail_zero m hm
    · rw [List.mem_singleton.mp hm, htail]

/-- Bytes written at the head of a node come after those it holds. -/
theorem bytes_append_data (n : StreamNode) (b : List UInt8) (h : n.tail ≤ n.head) :
    ({ n with data := n.data ++ b } : StreamNode).bytes = n.bytes ++ b := by
  simp only [StreamNode.bytes]
  exact List.drop_append_of_le_length h

/-! ## `stream_put` -/

/-- The node count of `stream_put` is `⌈(c - cap) / BUFSIZE⌉` for every `c`
it is computed for (`c ≥ 1`): when `c < cap` the subtraction wraps, and adding
`BUFSIZE - 1` wraps back below `BUFSIZE`. -/
theorem putNodeCount_toNat {c cap : Nat} (hc : 0 < c) (hc' : c < 2 ^ 64 - 4096)
    (hcap : cap ≤ BUFSIZE) :
    (putNodeCount (UInt64.ofNat c) (UInt64.ofNat cap)).toNat = (c - cap + (BUFSIZE - 1)) / BUFSIZE := by
  unfold putNodeCount BUFSIZE at *
  rw [UInt64.toNat_div, UInt64.toNat_add, UInt64.toNat_sub]
  simp only [UInt64.toNat_ofNat', UInt64.reduceSub, UInt64.reduceToNat]
  omega

/-- **The copy loop.** Started at the last node `cur` of a well-shaped chain,
followed by `f` fresh nodes where `f` is the number the bytes need beyond the
room in `cur`, the loop ends at the last node of a well-shaped chain that holds
the bytes after the old ones. -/
theorem putFill_spec (fuel : Nat) :
    ∀ (pre : List StreamNode) (cur : StreamNode) (f : Nat) (data : List UInt8),
      ChainWf (pre ++ [cur]) →
      f = (data.length - (BUFSIZE - cur.head) + (BUFSIZE - 1)) / BUFSIZE → data.length ≤ fuel →
      ∃ nodes, putFill fuel (pre ++ cur :: List.replicate f StreamNode.fresh) pre.length data =
          (nodes, nodes.length - 1) ∧
        nodes ≠ [] ∧ ChainWf nodes ∧ chainBytes nodes = chainBytes (pre ++ [cur]) ++ data := by
  induction fuel with
  | zero =>
    intro pre cur f data hwf hf hfuel
    obtain rfl : data = [] := List.eq_nil_of_length_eq_zero (by omega)
    obtain rfl : f = 0 := by simp only [List.length_nil] at hf; unfold BUFSIZE at hf; omega
    exact ⟨pre ++ [cur], by simp [putFill], by simp, hwf, by simp⟩
  | succ fuel ih =>
    intro pre cur f data hwf hf hfuel
    rcases data with _ | ⟨b, bs⟩
    · obtain rfl : f = 0 := by simp only [List.length_nil] at hf; unfold BUFSIZE at hf; omega
      exact ⟨pre ++ [cur], by simp [putFill], by simp, hwf, by simp⟩
    have hbound := hwf.bound cur (by simp)
    have hpos : 0 < (b :: bs).length := by simp
    simp only [putFill, getD_append_length]
    generalize b :: bs = data at hf hfuel hpos ⊢
    have hhead : cur.head = cur.data.length := rfl
    by_cases hcap : BUFSIZE - cur.head = 0
    · -- `cur` is full: the loop moves on to the first fresh node
      obtain ⟨f', rfl⟩ : ∃ f', f = f' + 1 :=
        Nat.exists_eq_add_one.mpr (by rw [hf]; unfold BUFSIZE at *; omega)
      have hnodes : pre ++ cur :: List.replicate (f' + 1) StreamNode.fresh =
          (pre ++ [cur]) ++ StreamNode.fresh :: List.replicate f' StreamNode.fresh := by
        simp [List.replicate_succ]
      have hlen : pre.length + 1 = (pre ++ [cur]).length := by simp
      rw [if_pos hcap, if_pos hcap, hnodes, hlen, modify_append_length]
      have hwf' : ChainWf (pre ++ [cur] ++ [{ StreamNode.fresh with
          data := StreamNode.fresh.data ++ data.take (min data.length BUFSIZE) }]) :=
        hwf.push (by omega) rfl (by simp [StreamNode.head, StreamNode.fresh])
      obtain ⟨nodes, hrun, hne, hwfn, hbytes⟩ := ih (pre ++ [cur]) _ f' (data.drop (min data.length BUFSIZE)) hwf'
        (by simp only [StreamNode.head, StreamNode.fresh, List.length_drop, List.length_take,
              List.nil_append]
            unfold BUFSIZE at *; omega)
        (by simp only [List.length_drop]; unfold BUFSIZE; omega)
      refine ⟨nodes, hrun, hne, hwfn, ?_⟩
      rw [hbytes, chainBytes_append, chainBytes_append]
      simp [StreamNode.bytes, StreamNode.fresh]
    · -- room in `cur`: the loop writes into it
      rw [if_neg hcap, if_neg hcap, modify_append_length]
      have hwf' : ChainWf (pre ++ [{ cur with
          data := cur.data ++ data.take (min data.length (BUFSIZE - cur.head)) }]) :=
        hwf.grow_last rfl (by simp [StreamNode.head])
          (by simp only [StreamNode.head, List.length_append, List.length_take]; omega)
      obtain ⟨nodes, hrun, hne, hwfn, hbytes⟩ := ih pre _ f (data.drop (min data.length (BUFSIZE - cur.head))) hwf'
        (by simp only [StreamNode.head, List.length_drop, List.length_append, List.length_take]
            rw [hhead] at hf hcap hbound; unfold BUFSIZE at *; omega)
        (by simp only [List.length_drop]; omega)
      refine ⟨nodes, hrun, hne, hwfn, ?_⟩
      rw [hbytes, chainBytes_append, chainBytes_append, chainBytes_cons, chainBytes_cons,
        bytes_append_data cur _ hbound.1]
      simp

/-- The chain as `stream_put` links it: the old chain, ending in `cur`, then
`num` fresh nodes (none when `num = 0`). -/
theorem linked_eq {nodes pre : List StreamNode} {cur : StreamNode} (hsplit : nodes = pre ++ [cur])
    (num : Nat) :
    (if num = 0 then (nodes, some pre.length)
      else (nodes.take (pre.length + 1) ++ List.replicate num StreamNode.fresh, some pre.length)) =
      (pre ++ cur :: List.replicate num StreamNode.fresh, some pre.length) := by
  subst hsplit
  split_ifs with h
  · simp [h]
  · rw [List.take_of_length_le (by simp)]
    simp

/-- A stream whose `last` is `NULL` has no nodes. -/
theorem StreamInv.nodes_eq_nil {s : Stream} (hs : StreamInv s) (h : s.last = none) : s.nodes = [] := by
  have hl := hs.last
  rw [h] at hl
  split_ifs at hl with hn
  exact hn

/-- `first` and `last` are `NULL` together. -/
theorem StreamInv.nodes_eq_nil_iff {s : Stream} (hs : StreamInv s) : s.nodes = [] ↔ s.last = none := by
  rw [hs.last]
  split_ifs with h <;> simp [h]

/-- A stream whose `last` is set ends in the node it points to. -/
theorem StreamInv.split_last {s : Stream} (hs : StreamInv s) {i : Nat} (h : s.last = some i) :
    ∃ pre cur, s.nodes = pre ++ [cur] ∧ i = pre.length := by
  have hl := hs.last
  rw [h] at hl
  split_ifs at hl with hn
  obtain ⟨pre, cur, hsplit⟩ : ∃ pre cur, s.nodes = pre ++ [cur] :=
    ⟨_, _, (List.dropLast_append_getLast hn).symm⟩
  refine ⟨pre, cur, hsplit, ?_⟩
  cases hl
  simp [hsplit]

/-- The stream `stream_put` leaves when `putFill` ends at the last node of a
well-shaped chain holding the old bytes and then `data`. -/
theorem streamInv_of_fill {s : Stream} (hs : StreamInv s) {nodes : List StreamNode}
    (hne : nodes ≠ []) (hwf : ChainWf nodes) (bytes : List UInt8)
    (hbytes : chainBytes nodes = s.queue ++ bytes) :
    StreamInv ⟨nodes, some (nodes.length - 1), s.count + bytes.length⟩ where
  chain := hwf
  last := by simp [hne]
  count := by simp [Stream.queue, hbytes, hs.count]

/-- The nodes a put of `data` needs beyond the room in the last node:
`⌈(c - cap) / BUFSIZE⌉`. -/
def putNodesNeeded (s : Stream) (data : List UInt8) : Nat :=
  (data.length - putCap s + (BUFSIZE - 1)) / BUFSIZE

/-- **`stream_put`** fails with `-ENOMEM` and leaves the stream as it was
exactly when fewer `malloc` calls succeed than it needs nodes, and otherwise
appends its bytes to the queue; the invariant holds either way. -/
theorem streamPut_spec {s : Stream} (hs : StreamInv s) (avail : Nat) {data : List UInt8}
    (hlen : data.length < 2 ^ 64 - 4096) :
    StreamInv (streamPut s avail data).2 ∧
      (avail < putNodesNeeded s data → streamPut s avail data = (-ENOMEM, s)) ∧
      (putNodesNeeded s data ≤ avail →
        (streamPut s avail data).1 = 0 ∧ (streamPut s avail data).2.queue = s.queue ++ data) := by
  by_cases hc : data.length = 0
  · -- nothing to put: no node is needed and the stream stays
    obtain rfl : data = [] := List.eq_nil_of_length_eq_zero hc
    have hzero : putNodesNeeded s [] = 0 := by
      simp [putNodesNeeded, BUFSIZE]
    simp [streamPut, hs, hzero]
  have hpos : 0 < data.length := Nat.pos_of_ne_zero hc
  cases hl : s.last with
  | none =>
    -- an empty stream: the fresh nodes become the whole chain
    have hnil := hs.nodes_eq_nil hl
    have hcap : putCap s = 0 := by simp [putCap, hl]
    have hnum := putNodeCount_toNat hpos hlen (Nat.zero_le BUFSIZE)
    rw [putNodesNeeded, hcap]
    simp only [streamPut, hc, if_false, hcap, hl, hnum]
    split_ifs with havail hzero
    · exact ⟨hs, fun _ => rfl, fun h => absurd h (Nat.not_le.mpr havail)⟩
    · unfold BUFSIZE at hzero; omega
    · obtain ⟨f, hf⟩ : ∃ f, (data.length - 0 + (BUFSIZE - 1)) / BUFSIZE = f + 1 :=
        Nat.exists_eq_add_one.mpr (by unfold BUFSIZE; omega)
      have hfresh : List.replicate ((data.length - 0 + (BUFSIZE - 1)) / BUFSIZE) StreamNode.fresh =
          [] ++ StreamNode.fresh :: List.replicate f StreamNode.fresh := by
        rw [hf, List.replicate_succ, List.nil_append]
      obtain ⟨nodes, hrun, hne, hwf, hbytes⟩ := putFill_spec data.length [] StreamNode.fresh f data
        (by simpa using ChainWf.singleton (n := StreamNode.fresh) (by simp [StreamNode.head, StreamNode.fresh]))
        (by simp only [StreamNode.head, StreamNode.fresh, List.length_nil]; unfold BUFSIZE at *; omega)
        le_rfl
      have hrun' : putFill data.length ([] ++ StreamNode.fresh :: List.replicate f StreamNode.fresh) 0
          data = (nodes, nodes.length - 1) := hrun
      have hb : chainBytes nodes = s.queue ++ data := by
        simp [hbytes, Stream.queue, hnil, StreamNode.bytes, StreamNode.fresh]
      dsimp only
      rw [hfresh, Option.getD_some, hrun']
      exact ⟨streamInv_of_fill hs hne hwf data hb, fun h => absurd h havail, fun _ => ⟨rfl, hb⟩⟩
  | some i =>
    -- the new nodes go after the last node `cur`
    obtain ⟨pre, cur, hsplit, rfl⟩ := hs.split_last hl
    have hbound := hs.chain.bound cur (by simp [hsplit])
    have hnum := putNodeCount_toNat hpos hlen (Nat.sub_le BUFSIZE cur.head)
    have hgetD : s.nodes.getD pre.length StreamNode.fresh = cur := by
      rw [hsplit, getD_append_length]
    have hcap : putCap s = BUFSIZE - cur.head := by
      rw [putCap, hl]
      show BUFSIZE - (s.nodes.getD pre.length StreamNode.fresh).head = _
      rw [hgetD]
    rw [putNodesNeeded, hcap]
    simp only [streamPut, hc, if_false, hcap, hl, hnum]
    rw [linked_eq hsplit]
    split_ifs with havail
    · exact ⟨hs, fun _ => rfl, fun h => absurd h (Nat.not_le.mpr havail)⟩
    · obtain ⟨nodes, hrun, hne, hwf, hbytes⟩ :=
        putFill_spec data.length pre cur _ data (hsplit ▸ hs.chain) rfl le_rfl
      have hb : chainBytes nodes = s.queue ++ data := by
        rw [hbytes, Stream.queue, hsplit]
      dsimp only
      rw [Option.getD_some, hrun]
      exact ⟨streamInv_of_fill hs hne hwf data hb, fun h => absurd h havail, fun _ => ⟨rfl, hb⟩⟩

/-! ## `stream_consume` and `stream_get` -/

/-- **The consume loop.** On a well-shaped chain, for at most the bytes it
holds, the chain left from `s->first` is well shaped, holds the bytes after the
first `c`, and is no longer than before. -/
theorem consumeLoop_spec : ∀ (nodes : List StreamNode) (c : Nat), ChainWf nodes →
    c ≤ (chainBytes nodes).length →
    ChainWf (consumeLoop c nodes).1 ∧
      chainBytes (consumeLoop c nodes).1 = (chainBytes nodes).drop c ∧
      (consumeLoop c nodes).1.length ≤ nodes.length
  | nodes, 0, hwf, _ => by simp [consumeLoop, hwf]
  | [], c + 1, _, hc => by simp at hc
  | n :: nodes, c + 1, hwf, hc => by
    have hb := hwf.bound n List.mem_cons_self
    have hlenb := length_bytes n
    simp only [chainBytes_cons, List.length_append] at hc
    by_cases hblock : c + 1 ≤ n.head - n.tail
    · -- the first node holds all the bytes to consume
      simp only [consumeLoop, min_eq_left hblock, Nat.sub_self, Bool.false_or, decide_eq_true_eq]
      split_ifs with hfree
      · -- it is emptied up to `BUFSIZE`: freed
        have hall : n.bytes.length = c + 1 := by unfold BUFSIZE at hfree hb; omega
        exact ⟨hwf.tail, by rw [chainBytes_cons, List.drop_left' hall], by simp⟩
      · refine ⟨hwf.consume_first (by omega), ?_, by simp⟩
        have hdrop : ({ n with tail := n.tail + (c + 1) } : StreamNode).bytes = n.bytes.drop (c + 1) := by
          simp [StreamNode.bytes, List.drop_drop]
        rw [chainBytes_cons, chainBytes_cons, hdrop, List.drop_append_of_le_length (by omega)]
    · -- the first node is emptied; it is full, so it is freed
      have hne : nodes ≠ [] := by
        rintro rfl
        simp at hc
        omega
      have hfull : n.head = BUFSIZE := hwf.full n (by
        obtain ⟨m, ms, rfl⟩ := List.exists_cons_of_ne_nil hne
        simp)
      obtain ⟨hwf', hbytes, hlen⟩ := consumeLoop_spec nodes (c + 1 - (n.head - n.tail)) hwf.tail
        (by omega)
      have hfree : n.tail + (n.head - n.tail) = BUFSIZE := by omega
      simp only [consumeLoop, min_eq_right (Nat.le_of_not_le hblock), hfree, decide_true,
        Bool.or_true, if_true]
      refine ⟨hwf', ?_, by simp only [List.length_cons]; omega⟩
      have hnil : n.bytes.drop (c + 1) = [] := List.drop_eq_nil_of_le (by omega)
      rw [hbytes, chainBytes_cons, List.drop_append, hnil, hlenb, List.nil_append]

/-- **`stream_consume`** drops the first `c` bytes of the queue and keeps the
invariant. -/
theorem streamConsume_spec {s : Stream} (hs : StreamInv s) (c : Nat) :
    StreamInv (streamConsume s c) ∧ (streamConsume s c).queue = s.queue.drop c := by
  have hc : min c s.count ≤ (chainBytes s.nodes).length := by
    rw [← Stream.queue, ← hs.count]
    exact min_le_right _ _
  obtain ⟨hwf, hbytes, hlen⟩ := consumeLoop_spec s.nodes (min c s.count) hs.chain hc
  set rest := (consumeLoop (min c s.count) s.nodes).1 with hrest
  have hqueue : chainBytes rest = s.queue.drop c := by
    rw [hbytes, ← Stream.queue, hs.count, ← List.drop_eq_drop_min]
  have hdef : streamConsume s c = ⟨rest,
      if rest = [] then none else s.last.map (· - (s.nodes.length - rest.length)),
      s.count - min c s.count⟩ := rfl
  rw [hdef]
  refine ⟨⟨hwf, ?_, ?_⟩, hqueue⟩
  · -- `last` keeps pointing to the last node, or becomes `NULL` with `first`
    show (if rest = [] then none else s.last.map (· - (s.nodes.length - rest.length))) =
      if rest = [] then none else some (rest.length - 1)
    split_ifs with hr
    · rfl
    · have hpos := List.length_pos_of_ne_nil hr
      have hnodes : s.nodes ≠ [] := List.ne_nil_of_length_pos (by omega)
      rw [hs.last, if_neg hnodes, Option.map_some]
      congr 1
      omega
  · show s.count - min c s.count = (chainBytes rest).length
    rw [hqueue, List.length_drop, ← hs.count]
    omega
/-- **The copy loop of `stream_get`** reads the first `c` bytes of the chain. -/
theorem getLoop_spec : ∀ (c : Nat) (nodes : List StreamNode), (∀ n ∈ nodes, n.head ≤ BUFSIZE) →
    getLoop c nodes = (chainBytes nodes).take c
  | 0, nodes, _ => by simp [getLoop]
  | c + 1, [], _ => by simp [getLoop]
  | c + 1, n :: nodes, h => by
    have hn := h n List.mem_cons_self
    have hrest : ∀ m ∈ nodes, m.head ≤ BUFSIZE := fun m hm => h m (List.mem_cons_of_mem n hm)
    by_cases ht : n.tail = BUFSIZE
    · -- a node emptied up to `BUFSIZE` holds nothing and is skipped
      have hempty : n.bytes = [] := List.drop_eq_nil_of_le (by rw [ht]; exact hn)
      simp only [getLoop, if_pos ht]
      rw [getLoop_spec (c + 1) nodes hrest, chainBytes_cons, hempty, List.nil_append]
    · simp only [getLoop, if_neg ht]
      rw [getLoop_spec _ nodes hrest, ← length_bytes]
      change n.bytes.take (min (c + 1) n.bytes.length) ++
          (chainBytes nodes).take (c + 1 - min (c + 1) n.bytes.length) =
        (chainBytes (n :: nodes)).take (c + 1)
      rw [chainBytes_cons, List.take_append, ← List.take_eq_take_min]
      -- past the first node the loop reads what is still wanted
      congr 2
      omega

/-- **`stream_get`** copies out the first `c` bytes of the queue, returns their
number as an `int`, and drops as many bytes as that `int` reads as a `size_t`. -/
theorem streamGet_spec {s : Stream} (hs : StreamInv s) (c : Nat) :
    (streamGet s c).1 = intOfNat (min c s.queue.length) ∧ (streamGet s c).2.1 = s.queue.take c ∧
      StreamInv (streamGet s c).2.2 ∧
      (streamGet s c).2.2.queue = s.queue.drop (sizeOfInt (intOfNat (min c s.queue.length))) := by
  have hheads : ∀ n ∈ s.nodes, n.head ≤ BUFSIZE := fun n hn => (hs.chain.bound n hn).2
  rw [← hs.count]
  by_cases h0 : s.count = 0
  · have hq : s.queue = [] := List.eq_nil_of_length_eq_zero (hs.count ▸ h0)
    have hget : streamGet s c = (0, [], s) := by simp only [streamGet, if_pos h0]
    rw [hget, h0, Nat.min_zero, intOfNat_zero, hq, List.take_nil, List.drop_nil]
    exact ⟨rfl, rfl, hs, rfl⟩
  · obtain ⟨hinv, hqueue⟩ := streamConsume_spec hs (sizeOfInt (intOfNat (min c s.count)))
    have hget : streamGet s c = (intOfNat (min c s.count), getLoop (min c s.count) s.nodes,
        streamConsume s (sizeOfInt (intOfNat (min c s.count)))) := by
      simp only [streamGet, if_neg h0]
    rw [hget]
    -- `dsimp` reads the projection without unfolding `intOfNat`
    refine ⟨by dsimp only, ?_, hinv, hqueue⟩
    rw [getLoop_spec _ _ hheads, ← Stream.queue, hs.count, ← List.take_eq_take_min]

/-- `stream_get` for a number of bytes an `int` holds: it returns that number
and moves exactly those bytes out of the queue. -/
theorem streamGet_of_lt {s : Stream} (hs : StreamInv s) {c : Nat}
    (hc : min c s.queue.length < 2 ^ 31) :
    (streamGet s c).1 = min c s.queue.length ∧ (streamGet s c).2.1 = s.queue.take c ∧
      StreamInv (streamGet s c).2.2 ∧ (streamGet s c).2.2.queue = s.queue.drop c := by
  obtain ⟨hret, hbytes, hinv, hqueue⟩ := streamGet_spec hs c
  rw [sizeOfInt_intOfNat hc, ← List.drop_eq_drop_min] at hqueue
  rw [intOfNat_of_lt hc] at hret
  exact ⟨hret, hbytes, hinv, hqueue⟩

/-- At `2^31` bytes `stream_get`'s `int` wraps: it copies `2^31` bytes, returns
`-2^31`, and `stream_consume` reads that count as the `size_t` `2^64 - 2^31`. -/
theorem streamGet_wrap {s : Stream} (hs : StreamInv s) (hq : 2 ^ 31 ≤ s.queue.length) :
    (streamGet s (2 ^ 31)).1 = -2 ^ 31 ∧ (streamGet s (2 ^ 31)).2.1 = s.queue.take (2 ^ 31) ∧
      (streamGet s (2 ^ 31)).2.2.queue = s.queue.drop (2 ^ 64 - 2 ^ 31) := by
  obtain ⟨hret, hbytes, -, hqueue⟩ := streamGet_spec hs (2 ^ 31)
  rw [Nat.min_eq_left hq] at hret hqueue
  rw [sizeOfInt_intOfNat_of_ge le_rfl (by norm_num)] at hqueue
  refine ⟨by rw [hret]; decide, hbytes, ?_⟩
  rw [hqueue]
  norm_num

/-- `stream_ndata` is the length of the queue. -/
theorem streamNdata_eq {s : Stream} (hs : StreamInv s) : streamNdata s = s.queue.length :=
  hs.count

/-! ## `stream_iovec` and `stream_flush` -/

/-- `stream_iovec` with fewer than `2^31` nodes and a successful `malloc`
makes one iovec per node, and together they cover the queue. -/
theorem streamIovec_spec (s : Stream) (hn : s.nodes.length < 2 ^ 31) :
    (streamIovec s true).1 = s.nodes.length ∧ (streamIovec s true).2.flatten = s.queue := by
  have hk : intOfNat s.nodes.length = s.nodes.length := intOfNat_of_lt hn
  simp only [streamIovec, hk, if_true]
  by_cases h0 : s.nodes.length = 0
  · have hnil : s.nodes = [] := List.eq_nil_of_length_eq_zero h0
    simp [hnil, Stream.queue]
  · rw [if_neg (by exact_mod_cast h0)]
    exact ⟨rfl, rfl⟩

/-- A failed `malloc` makes `stream_iovec` return 0 or `-ENOMEM`. -/
theorem streamIovec_fail (s : Stream) : (streamIovec s false).1 ≤ 0 := by
  simp only [streamIovec, Bool.false_eq_true, if_false]
  by_cases h : intOfNat s.nodes.length = 0
  · rw [if_pos h]
  · rw [if_neg h]
    decide

section Flush

variable {s : Stream} {ok : Bool}

/-- The three exits of `stream_flush`, each under its own condition. The first
names the count `c` so that no goal holds a projection of `stream_iovec`'s
result, which Lean would try to evaluate. -/
theorem streamFlush_of_le (written : Option Nat) {c : Int} (hc : (streamIovec s ok).1 = c)
    (h : c ≤ 0) : streamFlush s ok written = (c, s) := by
  subst hc
  simp only [streamFlush, h, if_true]

theorem streamFlush_of_none (h : ¬ (streamIovec s ok).1 ≤ 0) :
    streamFlush s ok none = (-1, s) := by
  simp only [streamFlush, h, if_false]

theorem streamFlush_of_some (n : Nat) (h : ¬ (streamIovec s ok).1 ≤ 0) :
    streamFlush s ok (some n) = if intOfNat n > 0
      then (intOfNat n, streamConsume s (sizeOfInt (intOfNat n))) else (intOfNat n, s) := by
  simp only [streamFlush, h, if_false]

end Flush

/-- `stream_flush` either leaves the stream as it is or consumes from it. -/
theorem streamFlush_eq (s : Stream) (ok : Bool) (written : Option Nat) :
    (streamFlush s ok written).2 = s ∨ ∃ k, (streamFlush s ok written).2 = streamConsume s k := by
  by_cases h1 : (streamIovec s ok).1 ≤ 0
  · exact .inl (by rw [streamFlush_of_le written rfl h1])
  · cases written with
    | none => exact .inl (by rw [streamFlush_of_none h1])
    | some n =>
      rw [streamFlush_of_some n h1]
      -- the `int` count of `writev` decides whether anything is consumed
      by_cases h2 : intOfNat n > 0
      · exact .inr ⟨sizeOfInt (intOfNat n), by rw [if_pos h2]⟩
      · exact .inl (by rw [if_neg h2])

theorem streamFlush_inv {s : Stream} (hs : StreamInv s) (ok : Bool) (written : Option Nat) :
    StreamInv (streamFlush s ok written).2 := by
  rcases streamFlush_eq s ok written with h | ⟨k, h⟩
  · rwa [h]
  · rw [h]
    exact (streamConsume_spec hs k).1

/-- A flush whose `malloc` or `writev` fails changes nothing. -/
theorem streamFlush_fail (s : Stream) (ok : Bool) (written : Option Nat)
    (hfail : ok = false ∨ written = none) : (streamFlush s ok written).2 = s := by
  rcases hfail with rfl | rfl
  · rw [streamFlush_of_le written rfl (streamIovec_fail s)]
  · by_cases h1 : (streamIovec s ok).1 ≤ 0
    · rw [streamFlush_of_le none rfl h1]
    · rw [streamFlush_of_none h1]

/-- **`stream_flush`**: with fewer than `2^31` nodes, a successful `malloc` and
`writev` reporting `n` bytes written, a number an `int` holds, the flush drops
them from the queue, and returns `n` when they were in it. -/
theorem streamFlush_spec {s : Stream} (hs : StreamInv s) {n : Nat} (hn : n < 2 ^ 31)
    (hnodes : s.nodes.length < 2 ^ 31) :
    (streamFlush s true (some n)).2.queue = s.queue.drop n ∧
      (n ≤ s.queue.length → (streamFlush s true (some n)).1 = n) := by
  have hcount := (streamIovec_spec s hnodes).1
  by_cases hnil : s.nodes = []
  · -- no nodes: `writev` is not called, and the queue is empty
    have hq : s.queue = [] := by simp [Stream.queue, hnil]
    have h0 : (streamIovec s true).1 = 0 := by
      rw [hcount, hnil, List.length_nil, Nat.cast_zero]
    rw [streamFlush_of_le _ h0 le_rfl]
    refine ⟨by rw [hq, List.drop_nil], fun hle => ?_⟩
    rw [hq, List.length_nil, Nat.le_zero] at hle
    rw [hle, Nat.cast_zero]
  · have h1 : ¬ (streamIovec s true).1 ≤ 0 := by
      have := List.length_pos_of_ne_nil hnil
      rw [hcount]
      omega
    have hint : intOfNat n = n := intOfNat_of_lt hn
    rw [streamFlush_of_some n h1]
    by_cases hwrote : 0 < n
    · -- the bytes written are consumed
      have h2 : intOfNat n > 0 := by rw [hint]; exact_mod_cast hwrote
      rw [if_pos h2, hint, sizeOfInt_natCast (by omega)]
      exact ⟨(streamConsume_spec hs n).2, fun _ => rfl⟩
    · -- `writev` wrote nothing
      obtain rfl : n = 0 := by omega
      have h2 : ¬ intOfNat 0 > 0 := by rw [intOfNat_zero]; exact lt_irrefl 0
      rw [if_neg h2]
      exact ⟨rfl, fun _ => intOfNat_zero⟩

/-- A `writev` that reports `2^31` bytes is read as `-2^31` in the `int`:
nothing is consumed, whatever the stream. -/
theorem streamFlush_wrap (s : Stream) (ok : Bool) :
    (streamFlush s ok (some (2 ^ 31))).1 ≤ 0 ∧ (streamFlush s ok (some (2 ^ 31))).2 = s := by
  have hwrap : intOfNat (2 ^ 31) = -2 ^ 31 := by decide
  -- the count of `stream_iovec` is named, so that it is never evaluated
  generalize hc : (streamIovec s ok).1 = c
  by_cases h1 : c ≤ 0
  · rw [streamFlush_of_le _ hc h1]
    exact ⟨h1, rfl⟩
  · rw [streamFlush_of_some _ (by rw [hc]; exact h1), hwrap, if_neg (by decide)]
    exact ⟨show (-2 ^ 31 : Int) ≤ 0 by norm_num, rfl⟩

end Chaconne
