import Chaconne.Regexp.ClassSpec

/-!
# Compiling bracket classes

The syntax of a bracket class as a list of items (`ClassItem`: a character,
an interval or a class escape), what each item matches (`ClassItem.mem`, with
the matcher's own tests `is_digit`, `lre_is_space` and `is_word_char` for the
escapes), and the pattern text that spells a class (`renderClass`: `\` before
the four bytes that mean something inside brackets, UTF-8 from `0x80` on).
On every such class `re_parse_char_class` is a correct compiler:

* `reParseCharClass_renderClass` — it reads the whole class, and the
  instruction it emits matches a character exactly when the class holds it;
* `reParseCharClass_backwards`, `reParseCharClass_unclosed` and
  `reParseCharClass_non_bmp` — an interval given backwards, a class the pattern
  does not close, and a character above `0xffff` are refused with their
  messages.

Each of them runs the loop over the items first (`classLoop_render`).
-/

namespace Chaconne.Regexp

open Chaconne.Cutils

/-! ## Class syntax and its meaning -/

/-- `\d \D \s \S \w \W`. -/
inductive ClassEscape
  | d
  | D
  | s
  | S
  | w
  | W
deriving DecidableEq, Repr

/-- Its `CharRangeEnum` value. -/
def ClassEscape.code : ClassEscape → Nat
  | .d => CHAR_RANGE_d
  | .D => CHAR_RANGE_D
  | .s => CHAR_RANGE_s
  | .S => CHAR_RANGE_S
  | .w => CHAR_RANGE_w
  | .W => CHAR_RANGE_W

/-- The letter after the `\`. -/
def ClassEscape.letter : ClassEscape → UInt8
  | .d => 0x64
  | .D => 0x44
  | .s => 0x73
  | .S => 0x53
  | .w => 0x77
  | .W => 0x57

/-- What a class escape matches: what the matcher's own tests accept, or
what they refuse. -/
def ClassEscape.mem : ClassEscape → Nat → Bool
  | .d, c => isDigit c
  | .D, c => !isDigit c
  | .s, c => lreIsSpace c
  | .S, c => !lreIsSpace c
  | .w, c => isWordChar c
  | .W, c => !isWordChar c

/-- One item of a bracket class. -/
inductive ClassItem
  | char (c : Nat)
  | range (lo hi : Nat)
  | escape (e : ClassEscape)
deriving DecidableEq, Repr

def ClassItem.mem : ClassItem → Nat → Bool
  | .char a, c => c == a
  | .range lo hi, c => lo ≤ c && c ≤ hi
  | .escape e, c => e.mem c

/-- The items a class can spell: characters of the BMP, intervals in order. -/
def ClassItem.Wf : ClassItem → Prop
  | .char c => c < 0x10000
  | .range lo hi => lo ≤ hi ∧ hi < 0x10000
  | .escape _ => True

/-! ## Spelling a class -/

/-- The bytes that mean something inside brackets: `\`, `]`, `-` and `^`. -/
def classSpecial (c : Nat) : Bool := c == 0x5c || c == 0x5d || c == 0x2d || c == 0x5e

/-- A character in a pattern: a special byte behind `\`, another one below 128
as it is, and from 128 on its UTF-8. -/
def renderChar (c : Nat) : List UInt8 :=
  if c < 128 then
    if classSpecial c then [0x5c, UInt8.ofNat c] else [UInt8.ofNat c]
  else unicodeToUtf8 (UInt32.ofNat c)

def ClassItem.render : ClassItem → List UInt8
  | .char c => renderChar c
  | .range lo hi => renderChar lo ++ 0x2d :: renderChar hi
  | .escape e => [0x5c, e.letter]

/-- `[`, `^` for a complemented class, and the items. -/
def renderOpen (invert : Bool) (items : List ClassItem) : List UInt8 :=
  0x5b :: ((if invert then [0x5e] else []) ++ items.flatMap ClassItem.render)

/-- The class closed by `]`. -/
def renderClass (invert : Bool) (items : List ClassItem) : List UInt8 :=
  renderOpen invert items ++ [0x5d]

/-! ## What the escapes match -/

/-- `cr_init_char_range` builds exactly the characters the matcher's tests
accept, or refuse for the upper-case escapes. -/
theorem ClassEscape.mem_crInitCharRange (e : ClassEscape) {c : Nat} (hc : c < UINT32_MAX.toNat) :
    (crInitCharRange e.code).mem c = e.mem c := by
  have hinv : ∀ t < 3, (crInitCharRange (2 * t + 1)).mem c = !(crInitCharRange (2 * t)).mem c := by
    intro t ht
    rw [crInitCharRange_invert ht, crInvert_mem (crInitCharRange_bmp (by omega)).canonical.pointsSorted hc]
  cases e
  · exact crInitCharRange_d_mem c
  · exact (hinv 0 (by decide)).trans (congrArg (!·) (crInitCharRange_d_mem c))
  · exact crInitCharRange_s_mem c
  · exact (hinv 1 (by decide)).trans (congrArg (!·) (crInitCharRange_s_mem c))
  · exact crInitCharRange_w_mem c
  · exact (hinv 2 (by decide)).trans (congrArg (!·) (crInitCharRange_w_mem c))

/-! ## Reading a spelled character back -/

section Read

variable {buf : List UInt8} {q : Nat}

/-- The byte at `q + k` of what is written from `q`. -/
theorem byteAt_of_drop {xs rest : List UInt8} (h : buf.drop q = xs ++ rest) {k : Nat}
    (hk : k < xs.length) : byteAt buf (q + k) = (xs.getD k 0).toNat := by
  rw [byteAt, getD_of_drop h hk]

theorem byteAt_of_drop_cons {b : UInt8} {rest : List UInt8} (h : buf.drop q = b :: rest) :
    byteAt buf q = b.toNat := by
  simpa using @byteAt_of_drop buf q [b] rest h 0 (by simp)

/-- What is written from `q` on lies in the pattern. -/
theorem add_lt_length_of_drop {xs rest : List UInt8} (h : buf.drop q = xs ++ rest) {k : Nat}
    (hk : k < xs.length) : q + k < buf.length := by
  have hlen := congrArg List.length h
  simp only [List.length_drop, List.length_append] at hlen
  omega

theorem classSpecial_cases {c : Nat} (hs : classSpecial c = true) :
    c = 0x5c ∨ c = 0x5d ∨ c = 0x2d ∨ c = 0x5e := by
  simp only [classSpecial, Bool.or_eq_true, beq_iff_eq] at hs
  omega

/-- `lre_parse_escape` knows none of the special bytes: each stands for itself
behind `\`. -/
theorem lreParseEscape_special {c : Nat} (hs : classSpecial c = true) (h : byteAt buf q = c) (a : Nat) :
    lreParseEscape buf q a = .unknown := by
  unfold lreParseEscape
  rw [h]
  rcases classSpecial_cases hs with rfl | rfl | rfl | rfl <;> simp

theorem normalChar_ascii {cr : CharRange} (h : byteAt buf q < 128) :
    normalChar buf cr q = .ok (UInt32.ofNat (byteAt buf q), cr, q + 1) := by
  unfold normalChar
  rw [if_neg (by omega)]

/-- `unicode_from_utf8` reads back the UTF-8 of a character. -/
theorem unicodeFromUtf8_of_drop {c : Nat} (hc : c < 0x80000000) {rest : List UInt8}
    (h : buf.drop q = unicodeToUtf8 (UInt32.ofNat c) ++ rest) :
    unicodeFromUtf8 (buf.drop q) UTF8_CHAR_LEN_MAX = some (c, (unicodeToUtf8 (UInt32.ofNat c)).length) := by
  have hof : (UInt32.ofNat c).toNat = c := toNat_ofNat_of_lt (by omega)
  rw [h, unicodeFromUtf8_utf8Encode hc (by decide) (by rw [unicodeToUtf8_toNat (by omega), hof])]

/-- A byte from `0x80` on starts a character in UTF-8, for `get_class_atom`
as at `normal_char:`. -/
theorem getClassAtom_of_high {cr : CharRange} {b : Bool} (h : 128 ≤ byteAt buf q) :
    getClassAtom buf cr q b = normalChar buf cr q := by
  unfold getClassAtom
  rw [if_neg (by simp only [Char.reduceToNat]; omega), if_neg (by omega)]

/-- `get_class_atom` reads a spelled character back. -/
theorem getClassAtom_renderChar {c : Nat} (hc : c < 0x10000) {rest : List UInt8}
    (h : buf.drop q = renderChar c ++ rest) (cr : CharRange) (b : Bool) :
    getClassAtom buf cr q b = .ok (UInt32.ofNat c, cr, q + (renderChar c).length) := by
  by_cases h128 : c < 128
  · have hbyte : (UInt8.ofNat c).toNat = c := by
      rw [UInt8.toNat_ofNat']
      exact Nat.mod_eq_of_lt (by omega)
    by_cases hs : classSpecial c = true
    · -- a special byte behind `\`, which `lre_parse_escape` does not know
      have hr : renderChar c = [0x5c, UInt8.ofNat c] := by simp [renderChar, h128, hs]
      rw [hr] at h ⊢
      have h0 : byteAt buf q = 0x5c := by simpa using byteAt_of_drop h (k := 0) (by simp)
      have h1 : byteAt buf (q + 1) = c := by simpa [hbyte] using byteAt_of_drop h (k := 1) (by simp)
      have hq1 : ¬(q + 1 ≥ buf.length) := by
        have := add_lt_length_of_drop h (k := 1) (by simp)
        omega
      have hce : classEscape c = none := by
        rcases classSpecial_cases hs with rfl | rfl | rfl | rfl <;> rfl
      have hnc : ¬c = 99 := by
        rcases classSpecial_cases hs with rfl | rfl | rfl | rfl <;> decide
      unfold getClassAtom
      simp only [h0, Char.reduceToNat, ↓reduceIte, hq1, h1, hce, hnc, Nat.add_sub_cancel,
        lreParseEscape_special hs h1, normalChar_ascii (h1 ▸ h128)]
      rfl
    · -- a byte as it is
      have hr : renderChar c = [UInt8.ofNat c] := by simp [renderChar, h128, hs]
      rw [hr] at h ⊢
      have h0 : byteAt buf q = c := by simpa [hbyte] using byteAt_of_drop h (k := 0) (by simp)
      have hq : q < buf.length := by simpa using add_lt_length_of_drop h (k := 0) (by simp)
      have hnb : ¬c = '\\'.toNat := fun heq => hs (by simp [classSpecial, heq])
      unfold getClassAtom
      rw [h0, if_neg hnb, if_neg (by omega), normalChar_ascii (h0 ▸ h128), h0]
      rfl
  · -- UTF-8
    have hr : renderChar c = unicodeToUtf8 (UInt32.ofNat c) := by simp [renderChar, h128]
    rw [hr] at h ⊢
    have hof : (UInt32.ofNat c).toNat = c := toNat_ofNat_of_lt (by omega)
    obtain ⟨b0, t, hu, hb0⟩ := unicodeToUtf8_head (c := UInt32.ofNat c) (by omega) (by omega)
    have h0 : byteAt buf q = b0.toNat := by simpa [hu] using byteAt_of_drop h (k := 0) (by simp [hu])
    rw [getClassAtom_of_high (by omega), normalChar, if_pos (by omega), unicodeFromUtf8_of_drop (by omega) h]
    dsimp only
    rw [if_neg (by omega)]

end Read

/-! ## One round of the loop per item -/

section Items

variable {buf : List UInt8} {q : Nat}

/-- What follows a spelled piece. -/
theorem drop_of_drop {xs rest : List UInt8} (h : buf.drop q = xs ++ rest) :
    buf.drop (q + xs.length) = rest := by
  rw [← List.drop_drop, h, List.drop_left]

/-- A spelled character starts with a byte that is not `-`, `]` or `^`. -/
theorem renderChar_head {c : Nat} (hc : c < 0x10000) :
    ∃ b t, renderChar c = b :: t ∧ b.toNat ≠ 0x2d ∧ b.toNat ≠ 0x5d ∧ b.toNat ≠ 0x5e := by
  unfold renderChar
  split_ifs with h128 hs
  · exact ⟨_, _, rfl, by decide, by decide, by decide⟩
  · have hbyte : (UInt8.ofNat c).toNat = c := by
      rw [UInt8.toNat_ofNat']
      exact Nat.mod_eq_of_lt (by omega)
    simp only [classSpecial, Bool.or_eq_true, beq_iff_eq, not_or] at hs
    exact ⟨_, _, rfl, by omega, by omega, by omega⟩
  · obtain ⟨b, t, hu, hb⟩ := unicodeToUtf8_head (c := UInt32.ofNat c)
      (by rw [toNat_ofNat_of_lt (by omega)]; omega) (by rw [toNat_ofNat_of_lt (by omega)]; omega)
    exact ⟨b, t, hu, by omega, by omega, by omega⟩

/-- So does a spelled item. -/
theorem ClassItem.render_head {it : ClassItem} (hwf : it.Wf) :
    ∃ b t, it.render = b :: t ∧ b.toNat ≠ 0x2d ∧ b.toNat ≠ 0x5d ∧ b.toNat ≠ 0x5e := by
  cases it with
  | char c => exact renderChar_head hwf
  | range lo hi =>
    obtain ⟨b, t, hr, hb⟩ := renderChar_head (show lo < 0x10000 by simp only [ClassItem.Wf] at hwf; omega)
    exact ⟨b, t ++ 0x2d :: renderChar hi, by rw [ClassItem.render, hr, List.cons_append], hb⟩
  | escape e => exact ⟨_, _, rfl, by decide, by decide, by decide⟩

theorem classAtom_char {cr cr1 : CharRange} {c : UInt32} (hc : c.toNat < 0x10000) :
    classAtom cr c cr1 = crUnionInterval cr c c := by
  unfold classAtom
  rw [if_neg (not_base_le_of_lt hc)]

theorem classAtom_base {cr cr1 : CharRange} : classAtom cr CLASS_RANGE_BASE cr1 = crUnion1 cr cr1.points := by
  unfold classAtom
  rw [if_pos (UInt32.le_iff_toNat_le.mpr (Nat.le_refl _))]

/-- `get_class_atom` reads a spelled class escape. -/
theorem getClassAtom_escape (e : ClassEscape) {rest : List UInt8} (h : buf.drop q = [0x5c, e.letter] ++ rest)
    (cr : CharRange) (b : Bool) :
    getClassAtom buf cr q b = .ok (CLASS_RANGE_BASE, crInitCharRange e.code, q + 2) := by
  have h0 : byteAt buf q = 0x5c := by simpa using byteAt_of_drop h (k := 0) (by simp)
  have h1 : byteAt buf (q + 1) = e.letter.toNat := by simpa using byteAt_of_drop h (k := 1) (by simp)
  have hq1 : ¬(q + 1 ≥ buf.length) := by
    have := add_lt_length_of_drop h (k := 1) (by simp)
    omega
  have hce : classEscape e.letter.toNat = some e.code := by cases e <;> rfl
  unfold getClassAtom
  simp only [h0, Char.reduceToNat, ↓reduceIte, hq1, h1, hce]

theorem ClassEscape.code_lt (e : ClassEscape) : e.code < 6 := by
  cases e <;> decide

/-- `c2` is below `UINT32_MAX` as an end of `cr_union_interval`. -/
theorem lt_max_of_bmp {c : UInt32} (hc : c.toNat < 0x10000) : c < UINT32_MAX := by
  rw [UInt32.lt_iff_toNat_lt]
  simp only [UINT32_MAX, UInt32.reduceToNat]
  omega

/-- The round over a spelled interval reads both ends and the `-` between
them, and compares the ends. -/
theorem classStep_range {lo hi : Nat} (hlo : lo < 0x10000) (hhi : hi < 0x10000) {rest : List UInt8}
    (h : buf.drop q = (ClassItem.range lo hi).render ++ rest) (cr cr1 : CharRange) :
    classStep buf cr cr1 q =
      if UInt32.ofNat hi < UInt32.ofNat lo then .error "invalid class range"
      else .ok (crUnionInterval cr (UInt32.ofNat lo) (UInt32.ofNat hi), cr1,
        q + (ClassItem.range lo hi).render.length) := by
  have hr : (ClassItem.range lo hi).render = renderChar lo ++ ([0x2d] ++ renderChar hi) := rfl
  rw [hr, List.append_assoc] at h
  have h2 := drop_of_drop h
  rw [List.append_assoc] at h2
  have h3 := drop_of_drop h2
  have hdash : byteAt buf (q + (renderChar lo).length) = 0x2d := by
    simpa using byteAt_of_drop h2 (k := 0) (by simp)
  -- `hi` does not start with `]`
  obtain ⟨b, t, hb, -, hb93, -⟩ := renderChar_head hhi
  have hclose : byteAt buf (q + (renderChar lo).length + 1) ≠ 0x5d := by
    rw [hb, List.cons_append] at h3
    rw [show (q + (renderChar lo).length + 1) = q + (renderChar lo).length + [(0x2d : UInt8)].length from rfl,
      byteAt_of_drop_cons h3]
    exact hb93
  unfold classStep
  rw [getClassAtom_renderChar hlo h]
  dsimp only
  rw [if_pos ⟨hdash, hclose⟩, if_neg (not_base_le_of_lt (by rw [toNat_ofNat_of_lt (by omega)]; omega)),
    getClassAtom_renderChar hhi (by simpa using h3)]
  dsimp only
  rw [if_neg (not_base_le_of_lt (by rw [toNat_ofNat_of_lt (by omega)]; omega)), hr]
  simp only [List.length_append, List.length_singleton, Nat.add_assoc]

/-- The round over a spelled item adds what the item matches, when what
follows is not a `-`. -/
theorem classStep_render {it : ClassItem} (hwf : it.Wf) {rest : List UInt8}
    (h : buf.drop q = it.render ++ rest) (hnext : byteAt buf (q + it.render.length) ≠ 0x2d)
    {cr : CharRange} (hcr : cr.Bmp) (cr1 : CharRange) :
    ∃ cr' cr1', classStep buf cr cr1 q = .ok (cr', cr1', q + it.render.length) ∧ cr'.Bmp ∧
      ∀ c < UINT32_MAX.toNat, cr'.mem c = (cr.mem c || it.mem c) := by
  have hsorted := hcr.canonical.pointsSorted
  cases it with
  | char a =>
    have ha : (UInt32.ofNat a).toNat = a := toNat_ofNat_of_lt (by simp only [ClassItem.Wf] at hwf; omega)
    have hwf' : (UInt32.ofNat a).toNat < 0x10000 := by
      rw [ha]
      exact hwf
    have hle := UInt32.le_iff_toNat_le.mpr (Nat.le_refl (UInt32.ofNat a).toNat)
    unfold classStep
    rw [getClassAtom_renderChar hwf h]
    dsimp only
    -- no `-` follows: the character alone
    rw [if_neg (fun hh => hnext hh.1), classAtom_char hwf']
    refine ⟨_, _, rfl, hcr.unionInterval hle hwf', fun c _ => ?_⟩
    rw [crUnionInterval_mem hsorted hle (lt_max_of_bmp hwf'), ha]
    congr 1
    by_cases hca : c = a
    · simp [ClassItem.mem, hca]
    · have hne : ¬(a ≤ c ∧ c ≤ a) := by omega
      simp [ClassItem.mem, hca, hne]
  | range lo hi =>
    obtain ⟨hlohi, hhi⟩ : lo ≤ hi ∧ hi < 0x10000 := hwf
    have hlo' : (UInt32.ofNat lo).toNat = lo := toNat_ofNat_of_lt (by omega)
    have hhi' : (UInt32.ofNat hi).toNat = hi := toNat_ofNat_of_lt (by omega)
    have h12 : UInt32.ofNat lo ≤ UInt32.ofNat hi := by
      rw [UInt32.le_iff_toNat_le, hlo', hhi']
      exact hlohi
    rw [classStep_range (by omega) hhi h, if_neg (by rw [UInt32.lt_iff_toNat_lt]; omega)]
    refine ⟨_, cr1, rfl, hcr.unionInterval h12 (by omega), fun c _ => ?_⟩
    rw [crUnionInterval_mem hsorted h12 (lt_max_of_bmp (by omega)), hlo', hhi']
    simp [ClassItem.mem]
  | escape e =>
    have hbmp := crInitCharRange_bmp e.code_lt
    unfold classStep
    rw [getClassAtom_escape e h]
    dsimp only
    rw [classAtom_base]
    refine ⟨_, crInitCharRange e.code, ?_, hcr.union1 hbmp, fun c hc => ?_⟩
    · -- after `-` or not, the class escape is added alone
      split_ifs with hdash hbase
      · rfl
      · exact absurd (UInt32.le_iff_toNat_le.mpr (Nat.le_refl _)) hbase
      · rfl
    · rw [crUnion1_mem hsorted hbmp.canonical.pointsSorted]
      exact congrArg _ (e.mem_crInitCharRange hc)

/-- The loop over spelled items, up to what follows them when that does not
start with `-`: each round adds one item, and the class stays in the BMP. -/
theorem classLoop_render {more : List UInt8} : ∀ (items : List ClassItem) (fuel : Nat) (cr cr1 : CharRange)
    (q : Nat), (∀ it ∈ items, it.Wf) → items.length ≤ fuel →
    buf.drop q = items.flatMap ClassItem.render ++ more →
    byteAt buf (q + (items.flatMap ClassItem.render).length) ≠ 0x2d → cr.Bmp →
    ∃ cr' cr1', classLoop buf fuel cr cr1 q =
        classLoop buf (fuel - items.length) cr' cr1' (q + (items.flatMap ClassItem.render).length) ∧
      cr'.Bmp ∧ ∀ c < UINT32_MAX.toNat, cr'.mem c = (cr.mem c || items.any (·.mem c))
  | [], fuel, cr, cr1, q, _, _, _, _, hcr => ⟨cr, cr1, by simp, hcr, fun c _ => by simp⟩
  | it :: items, fuel, cr, cr1, q, hwf, hfuel, h, hend, hcr => by
    obtain ⟨f, rfl⟩ : ∃ f, fuel = f + 1 := ⟨fuel - 1, by simp only [List.length_cons] at hfuel; omega⟩
    have hwf_it := hwf it List.mem_cons_self
    rw [List.flatMap_cons, List.append_assoc] at h
    -- the item is not a `]`, and no `-` follows it
    have hopen : byteAt buf q ≠ ']'.toNat := by
      obtain ⟨b, t, hb, -, hb93, -⟩ := ClassItem.render_head hwf_it
      rw [hb, List.cons_append] at h
      rw [byteAt_of_drop_cons h]
      exact hb93
    have hnext : byteAt buf (q + it.render.length) ≠ 0x2d := by
      cases items with
      | nil => simpa using hend
      | cons it' items' =>
        obtain ⟨b, t, hb, hb45, -⟩ := ClassItem.render_head (hwf it' (by simp))
        have h' := drop_of_drop h
        rw [List.flatMap_cons, hb, List.cons_append, List.cons_append] at h'
        rw [byteAt_of_drop_cons h']
        exact hb45
    obtain ⟨cr₁, cr1₁, hstep, hbmp₁, hmem₁⟩ := classStep_render hwf_it h hnext hcr cr1
    obtain ⟨cr', cr1', hloop, hbmp', hmem'⟩ := classLoop_render items f cr₁ cr1₁ (q + it.render.length)
      (fun it' hit' => hwf it' (List.mem_cons_of_mem _ hit')) (by simp only [List.length_cons] at hfuel; omega)
      (drop_of_drop h) (by simpa [Nat.add_assoc] using hend) hbmp₁
    refine ⟨cr', cr1', ?_, hbmp', fun c hc => ?_⟩
    · rw [classLoop, if_neg hopen, hstep]
      dsimp only
      rw [hloop]
      simp only [List.length_cons, List.flatMap_cons, List.length_append, Nat.add_sub_add_right, Nat.add_assoc]
    · rw [hmem' c hc, hmem₁ c hc, List.any_cons, Bool.or_assoc]

/-- Every spelled item takes a byte at least. -/
theorem length_le_flatMap_render : ∀ {items : List ClassItem}, (∀ it ∈ items, it.Wf) →
    items.length ≤ (items.flatMap ClassItem.render).length
  | [], _ => Nat.le_refl 0
  | it :: items, hwf => by
    obtain ⟨b, t, hb, -⟩ := ClassItem.render_head (hwf it List.mem_cons_self)
    have := @length_le_flatMap_render items fun it' hit' => hwf it' (List.mem_cons_of_mem _ hit')
    simp only [List.flatMap_cons, List.length_append, List.length_cons, hb]
    omega

/-- A round that fails ends the loop. -/
theorem classLoop_of_classStep_error {fuel : Nat} {cr cr1 : CharRange} {e : String}
    (hb : byteAt buf q ≠ ']'.toNat) (hs : classStep buf cr cr1 q = .error e) :
    classLoop buf (fuel + 1) cr cr1 q = .error e := by
  rw [classLoop, if_neg hb, hs]

end Items

/-! ## Compiling a spelled class -/

section Compile

variable {buf : List UInt8} {p : Nat}

/-- `re_parse_char_class` on a spelled `[`, `^` and items, followed by bytes
that start with neither `-` nor `^`: the loop over the items, then the rest
of the loop on what follows. -/
theorem reParseCharClass_open {invert : Bool} {items : List ClassItem} (hwf : ∀ it ∈ items, it.Wf)
    {more : List UInt8} (h : buf.drop p = renderOpen invert items ++ more)
    (hmore : byteAt buf (p + (renderOpen invert items).length) ≠ 0x2d ∧
      byteAt buf (p + (renderOpen invert items).length) ≠ 0x5e) :
    ∃ cr cr1, reParseCharClass buf p = classEnd invert
        (classLoop buf (buf.length - items.length + 1) cr cr1 (p + (renderOpen invert items).length)) ∧
      cr.Bmp ∧ ∀ c < UINT32_MAX.toNat, cr.mem c = items.any (·.mem c) := by
  -- the items lie in the pattern, a byte each at least
  have hlen : items.length ≤ buf.length := by
    have := congrArg List.length h
    have := length_le_flatMap_render hwf
    simp only [List.length_drop, List.length_append, renderOpen, List.length_cons] at *
    omega
  have hfuel : buf.length + 1 - items.length = buf.length - items.length + 1 := by omega
  -- after `[` and `^` come the items
  have hstart : ∃ q, buf.drop q = items.flatMap ClassItem.render ++ more ∧
      q + (items.flatMap ClassItem.render).length = p + (renderOpen invert items).length ∧
      reParseCharClass buf p = classEnd invert (classLoop buf (buf.length + 1) crInit crInit q) := by
    unfold reParseCharClass
    dsimp only
    cases invert with
    | true =>
      have h1 : buf.drop p = [0x5b, 0x5e] ++ (items.flatMap ClassItem.render ++ more) := by
        simpa [renderOpen] using h
      have hcaret : byteAt buf (p + 1) = 0x5e := by simpa using byteAt_of_drop h1 (k := 1) (by simp)
      refine ⟨p + 1 + 1, by simpa using drop_of_drop h1, by simp [renderOpen]; omega, ?_⟩
      simp [hcaret]
    | false =>
      have h1 : buf.drop p = [0x5b] ++ (items.flatMap ClassItem.render ++ more) := by
        simpa [renderOpen] using h
      have h2 := drop_of_drop h1
      simp only [List.length_singleton] at h2
      -- no `^`: the first item, or what follows, starts otherwise
      have hcaret : byteAt buf (p + 1) ≠ 0x5e := by
        cases items with
        | nil => simpa [renderOpen] using hmore.2
        | cons it items' =>
          obtain ⟨b, t, hb, -, -, hb94⟩ := ClassItem.render_head (hwf it List.mem_cons_self)
          rw [List.flatMap_cons, hb, List.cons_append, List.cons_append] at h2
          rw [byteAt_of_drop_cons h2]
          exact hb94
      refine ⟨p + 1, h2, by simp [renderOpen]; omega, ?_⟩
      rw [show (byteAt buf (p + 1) == '^'.toNat) = false from beq_eq_false_iff_ne.mpr hcaret]
      simp
  obtain ⟨q, hq, hqend, heq⟩ := hstart
  obtain ⟨cr, cr1, hloop, hbmp, hmem⟩ := classLoop_render items (buf.length + 1) crInit crInit q hwf
    (by omega) hq (by rw [hqend]; exact hmore.1) crInit_bmp
  refine ⟨cr, cr1, ?_, hbmp, fun c hc => by simpa [crInit, CharRange.mem] using hmem c hc⟩
  rw [heq, hloop, hfuel, hqend]

/-- `re_parse_char_class` compiles every spelled class correctly: it reads
it up to its `]`, and the instruction it emits matches a character exactly
when the class holds it, or does not for `[^...]`. -/
theorem reParseCharClass_renderClass (invert : Bool) (items : List ClassItem) (hwf : ∀ it ∈ items, it.Wf)
    {rest : List UInt8} (hbuf : buf.drop p = renderClass invert items ++ rest) :
    ∃ bc, reParseCharClass buf p = .ok (bc, p + (renderClass invert items).length) ∧
      ∀ c : UInt32, c.toNat < UINT32_MAX.toNat →
        (execCharOp bc c).isSome = (invert != items.any (·.mem c.toNat)) := by
  have h : buf.drop p = renderOpen invert items ++ (0x5d :: rest) := by
    simpa [renderClass] using hbuf
  have hclose : byteAt buf (p + (renderOpen invert items).length) = 0x5d :=
    byteAt_of_drop_cons (drop_of_drop h)
  obtain ⟨cr, cr1, heq, hbmp, hmem⟩ := reParseCharClass_open hwf h
    ⟨by rw [hclose]; decide, by rw [hclose]; decide⟩
  have hfinal := invert_bmp hbmp invert
  obtain ⟨bc, hbc⟩ := reEmitRange_of_bmp hfinal
  refine ⟨bc, ?_, fun c hc => ?_⟩
  · -- the loop stops at the `]`
    rw [heq, classLoop, if_pos (by rw [hclose]; rfl)]
    simp only [classEnd, hbc, renderClass, List.length_append, List.length_singleton, Nat.add_assoc]
  · obtain ⟨bc', hbc', hexec⟩ := reEmitRange_exec hfinal.canonical hfinal.len_lt hc
    rw [hbc] at hbc'
    cases hbc'
    rw [hexec]
    cases invert
    · simp [hmem c.toNat hc]
    · simp [crInvert_mem hbmp.canonical.pointsSorted hc, hmem c.toNat hc]

theorem reParseCharClass_renderClass_a_z_digit :
    (∀ it ∈ [ClassItem.range 0x61 0x7a, .escape .d], it.Wf) ∧
      ([0x5b, 0x61, 0x2d, 0x7a, 0x5c, 0x64, 0x5d] : List UInt8).drop 0 =
        renderClass false [.range 0x61 0x7a, .escape .d] ++ [] ∧
      ∃ bc, reParseCharClass [0x5b, 0x61, 0x2d, 0x7a, 0x5c, 0x64, 0x5d] 0 =
          .ok (bc, 0 + (renderClass false [.range 0x61 0x7a, .escape .d]).length) ∧
        ∀ c : UInt32, c.toNat < UINT32_MAX.toNat →
          (execCharOp bc c).isSome = (false != [ClassItem.range 0x61 0x7a, .escape .d].any (·.mem c.toNat)) := by
  have hwf : ∀ it ∈ [ClassItem.range 0x61 0x7a, .escape .d], it.Wf := by simp [ClassItem.Wf]
  have hbuf : ([0x5b, 0x61, 0x2d, 0x7a, 0x5c, 0x64, 0x5d] : List UInt8).drop 0 =
      renderClass false [.range 0x61 0x7a, .escape .d] ++ [] := by decide
  exact ⟨hwf, hbuf, reParseCharClass_renderClass false _ hwf hbuf⟩

/-- An interval given backwards is refused. -/
theorem reParseCharClass_backwards (invert : Bool) (items : List ClassItem) (hwf : ∀ it ∈ items, it.Wf)
    {lo hi : Nat} (hhi : hi < lo) (hlo : lo < 0x10000) {rest : List UInt8}
    (hbuf : buf.drop p = renderOpen invert items ++ (ClassItem.range lo hi).render ++ rest) :
    reParseCharClass buf p = .error "invalid class range" := by
  rw [List.append_assoc] at hbuf
  have hq := drop_of_drop hbuf
  obtain ⟨b, t, hb, hb45, hb93, hb94⟩ := renderChar_head hlo
  have hfirst : byteAt buf (p + (renderOpen invert items).length) = b.toNat := by
    have hr : (ClassItem.range lo hi).render ++ rest = b :: (t ++ 0x2d :: renderChar hi ++ rest) := by
      simp [ClassItem.render, hb]
    exact byteAt_of_drop_cons (hq.trans hr)
  obtain ⟨cr, cr1, heq, -⟩ := reParseCharClass_open hwf hbuf ⟨hfirst ▸ hb45, hfirst ▸ hb94⟩
  rw [heq, classLoop_of_classStep_error (hfirst ▸ hb93)]
  · rfl
  · rw [classStep_range hlo (by omega) hq, if_pos (by rw [UInt32.lt_iff_toNat_lt,
      toNat_ofNat_of_lt (by omega), toNat_ofNat_of_lt (by omega)]; exact hhi)]

theorem reParseCharClass_backwards_b_a :
    (∀ it ∈ ([] : List ClassItem), it.Wf) ∧ 0x61 < 0x62 ∧ 0x62 < 0x10000 ∧
      ([0x5b, 0x62, 0x2d, 0x61, 0x5d] : List UInt8).drop 0 =
        renderOpen false [] ++ (ClassItem.range 0x62 0x61).render ++ [0x5d] ∧
      reParseCharClass [0x5b, 0x62, 0x2d, 0x61, 0x5d] 0 = .error "invalid class range" :=
  have hbuf : ([0x5b, 0x62, 0x2d, 0x61, 0x5d] : List UInt8).drop 0 =
      renderOpen false [] ++ (ClassItem.range 0x62 0x61).render ++ [0x5d] := by decide
  ⟨by simp, by decide, by decide, hbuf,
    reParseCharClass_backwards false [] (by simp) (by decide) (by decide) hbuf⟩

/-- A class that the pattern does not close is refused. -/
theorem reParseCharClass_unclosed (invert : Bool) (items : List ClassItem) (hwf : ∀ it ∈ items, it.Wf)
    (hbuf : buf.drop p = renderOpen invert items) :
    reParseCharClass buf p = .error "unexpected end" := by
  have hend : buf.length ≤ p + (renderOpen invert items).length := by
    have := congrArg List.length hbuf
    simp only [List.length_drop] at this
    omega
  have hzero : byteAt buf (p + (renderOpen invert items).length) = 0 := by
    unfold byteAt
    rw [List.getD_eq_default _ _ hend]
    rfl
  obtain ⟨cr, cr1, heq, -⟩ := reParseCharClass_open hwf (by simpa using hbuf : buf.drop p = renderOpen invert items ++ [])
    ⟨by rw [hzero]; decide, by rw [hzero]; decide⟩
  rw [heq, classLoop_of_classStep_error (by rw [hzero]; decide) (classStep_of_end hend)]
  rfl

theorem reParseCharClass_unclosed_a :
    (∀ it ∈ [ClassItem.char 0x61], it.Wf) ∧
      ([0x5b, 0x61] : List UInt8).drop 0 = renderOpen false [.char 0x61] ∧
      reParseCharClass [0x5b, 0x61] 0 = .error "unexpected end" :=
  have hwf : ∀ it ∈ [ClassItem.char 0x61], it.Wf := by simp [ClassItem.Wf]
  have hbuf : ([0x5b, 0x61] : List UInt8).drop 0 = renderOpen false [.char 0x61] := by decide
  ⟨hwf, hbuf, reParseCharClass_unclosed false [.char 0x61] hwf hbuf⟩

/-- A character above `0xffff` is refused, though `unicode_from_utf8` reads
it. -/
theorem reParseCharClass_non_bmp (invert : Bool) (items : List ClassItem) (hwf : ∀ it ∈ items, it.Wf)
    {c : Nat} (hc : 0x10000 ≤ c) (hc' : c < 0x80000000) {rest : List UInt8}
    (hbuf : buf.drop p = renderOpen invert items ++ unicodeToUtf8 (UInt32.ofNat c) ++ rest) :
    reParseCharClass buf p = .error "malformed unicode char" := by
  rw [List.append_assoc] at hbuf
  have hq := drop_of_drop hbuf
  have hof : (UInt32.ofNat c).toNat = c := toNat_ofNat_of_lt (by omega)
  obtain ⟨b, t, hu, hb⟩ := unicodeToUtf8_head (c := UInt32.ofNat c) (by omega) (by omega)
  have hfirst : byteAt buf (p + (renderOpen invert items).length) = b.toNat := by
    rw [hu, List.cons_append] at hq
    exact byteAt_of_drop_cons hq
  obtain ⟨cr, cr1, heq, -⟩ := reParseCharClass_open hwf hbuf ⟨by omega, by omega⟩
  -- `unicode_from_utf8` reads the character, which is above `0xffff`
  have hatom : getClassAtom buf cr1 (p + (renderOpen invert items).length) true =
      .error "malformed unicode char" := by
    rw [getClassAtom_of_high (by omega), normalChar, if_pos (by omega), unicodeFromUtf8_of_drop hc' hq]
    dsimp only
    rw [if_pos (by omega)]
  rw [heq, classLoop_of_classStep_error (by simp only [Char.reduceToNat]; omega)
    (by rw [classStep, hatom])]
  rfl

theorem reParseCharClass_non_bmp_emoji :
    (∀ it ∈ ([] : List ClassItem), it.Wf) ∧ 0x10000 ≤ 0x1f600 ∧ 0x1f600 < 0x80000000 ∧
      ([0x5b, 0xf0, 0x9f, 0x98, 0x80, 0x5d] : List UInt8).drop 0 =
        renderOpen false [] ++ unicodeToUtf8 (UInt32.ofNat 0x1f600) ++ [0x5d] ∧
      reParseCharClass [0x5b, 0xf0, 0x9f, 0x98, 0x80, 0x5d] 0 = .error "malformed unicode char" :=
  have hbuf : ([0x5b, 0xf0, 0x9f, 0x98, 0x80, 0x5d] : List UInt8).drop 0 =
      renderOpen false [] ++ unicodeToUtf8 (UInt32.ofNat 0x1f600) ++ [0x5d] := by decide
  ⟨by simp, by decide, by decide, hbuf,
    reParseCharClass_non_bmp false [] (by simp) (by decide) (by decide) hbuf⟩

end Compile



end Chaconne.Regexp
