import Difacto.Io.CriteoParser

/-!
# Criteo chunks and the memory behind them

`CriteoParser::ParseNext` on any chunk. The cursor is compared with `end` only by inequality, and
delimiters are looked for and skipped that may not be there. Whether the parser stays inside the
chunk is a matter of the chunk's bytes alone.

A parser that is led out of the chunk meets, in a suitable memory, white space without tabs, and
looks for a tab for ever.

## Main definitions

* `CriteoParser.Contained` — the parser stays inside the chunk, and the memory behind it does not
  show.
* `CriteoParser.Completes`, `CriteoParser.Aborts` — the chunks that are parsed to the end, and those
  with a row that fails a check.

## Main results

* `CriteoParser.row_cases` — a turn of the loop takes a row, fails a check or leaves the chunk.
* `CriteoParser.contained_iff` — the chunks in which the parser stays.
-/

namespace Difacto.Io

open Base Lib Relation

namespace CriteoParser

/-- The parser fails a `CHECK`, or it returns and `p` has never been beyond `end`. Either way the
memory behind the chunk has no influence. -/
def Contained (c : CriteoParser) (chunk : List UInt8) : Prop :=
  (∃ message, ∀ behind, c.parse { bytes := chunk, behind } = .error (.check message)) ∨
    ∃ blk, ∀ behind, ∃ p : Ptr, c.parse { bytes := chunk, behind } = .ok { p, blk } ∧ 0 ≤ p.low

/-- In these rows there is, from each label on, a byte that is not white space. -/
def Labelled {isTrain : Bool} : List (CriteoRow isTrain) → Prop
  | [] => True
  | r :: rs =>
    (∃ d ∈ r.columns ++ (r.tail ++ rs.flatMap CriteoRow.text), isspace d = false) ∧ Labelled rs

/-- The chunk consists of rows. In the training mode there is a byte that is not white space from
each label on. -/
def Completes (isTrain : Bool) (chunk : List UInt8) : Prop :=
  ∃ rs : List (CriteoRow isTrain), CriteoRow.Whole [] rs ∧ (isTrain = true → Labelled rs) ∧
    chunk = rs.flatMap CriteoRow.text

/-- A row that fails a check. -/
inductive Failing (isTrain : Bool) : List UInt8 → Prop
  /-- The label is empty. -/
  | noLabel (htrain : isTrain = true) (eols : List UInt8) (heols : ∀ d ∈ eols, isEol d = true)
      (t : List UInt8) : Failing isTrain (eols ++ 9 :: t)
  /-- No white space follows after eight bytes of a categorical column. -/
  | long (h : CriteoHead isTrain) (items : List Item) (hlt : items.length < 26) (w : Word)
      (d : UInt8) (hd : isspace d = false) (t : List UInt8) :
      Failing isTrain (h.text ++ (items.flatMap Item.text ++ (w.1 ++ d :: t)))

/-- The chunk has such a row after complete ones. -/
def Aborts (isTrain : Bool) (chunk : List UInt8) : Prop :=
  ∃ (rs : List (CriteoRow isTrain)) (t : List UInt8), CriteoRow.Whole t rs ∧ Failing isTrain t ∧
    chunk = rs.flatMap CriteoRow.text ++ t

/-! ## Rows that fail a check -/

section Failing

variable {c : CriteoParser} {t : List UInt8}

theorem Failing.ne_nil {isTrain : Bool} (h : Failing isTrain t) : t ≠ [] := by
  cases h <;> simp

/-- The check fails whatever is behind the chunk. -/
theorem Failing.row_eq (h : Failing c.isTrain t) : ∃ message, ∀ behind blk,
    c.row { p := .inside t behind, blk } = .error (.check message) := by
  cases h with
  | noLabel htrain eols heols t =>
      refine ⟨"no label.., try criteo_test", fun behind blk => ?_⟩
      have hskip : (Ptr.inside (eols ++ 9 :: t) behind).skip isEol = .inside (9 :: t) behind :=
        Ptr.skip_inside heols rfl
      have hleft : (Ptr.inside (9 :: t) behind).left ≠ 0 := by
        rw [Ptr.left_inside, List.length_cons]
        omega
      have hfind : (Ptr.inside (9 :: t) behind).find 9 = some (.inside (9 :: t) behind) :=
        Ptr.find_inside List.not_mem_nil (by simp)
      simp only [row, hskip, if_neg hleft, columns, label, htrain, if_true, hfind]
      rfl
  | long h items hlt w d hd t =>
      refine ⟨message items.length (.inside (w.1 ++ d :: t) []), fun behind blk => ?_⟩
      have hlen : 26 = items.length + (25 - items.length + 1) := by omega
      have hget : (Ptr.inside (w.1 ++ d :: t) behind).get =
          (Ptr.inside (w.1 ++ d :: t) []).get := by
        rw [Ptr.get_inside_of_ne_nil (by simp), Ptr.get_inside_of_ne_nil (by simp)]
      have hmessage : message items.length (.inside (w.1 ++ d :: t) behind) =
          message items.length (.inside (w.1 ++ d :: t) []) := by
        rw [message, message, hget]
        rfl
      rw [row_head, hlen, catFeatures_eq, catFeatures_word, hd, if_neg Bool.false_ne_true,
        Nat.zero_add, hmessage]
      rfl

theorem contained_of_aborts (h : Aborts c.isTrain t) : Contained c t := by
  obtain ⟨rs, u, hrs, hu, rfl⟩ := h
  obtain ⟨message, hmessage⟩ := hu.row_eq
  refine .inl ⟨message, fun behind => ?_⟩
  have hpos := List.length_pos_iff.mpr hu.ne_nil
  have hend : atEnd { p := .inside u behind
                      blk := .ofRows ([] ++ c.rowsOf (u ++ behind) rs) } = false := by
    rw [atEnd, decide_eq_false_iff_not, Ptr.left_inside]
    omega
  have hbytes : (rs.flatMap CriteoRow.text ++ u).length ≠ 0 := by
    rw [List.length_append]
    omega
  rw [parse, if_neg hbytes]
  exact whileLoop_eq_error row_lt (run_rows rs hrs behind []) hend (hmessage behind _)
    (Nat.lt_succ_self _)

end Failing

/-! ## Rows that are parsed to the end -/

section Completes

variable {c : CriteoParser} {t : List UInt8}

/-- The text ends with white space. -/
def EndsSpace (t : List UInt8) : Prop := ∃ u d, t = u ++ [d] ∧ isspace d = true

theorem EndsSpace.append (h : EndsSpace t) (s : List UInt8) : EndsSpace (s ++ t) := by
  obtain ⟨u, d, rfl, hd⟩ := h
  exact ⟨s ++ u, d, (List.append_assoc ..).symm, hd⟩

/-- A number in such a text is read without the memory behind it. -/
theorem EndsSpace.atof_append (h : EndsSpace t) (hword : ∃ d ∈ t, isspace d = false)
    (behind : List UInt8) : atof (t ++ behind) = atof t := by
  obtain ⟨u, d, rfl, hd⟩ := h
  obtain ⟨e, he, hspace⟩ := hword
  have hu : e ∈ u := by
    rcases List.mem_append.mp he with hu | hlast
    · exact hu
    · rw [List.mem_singleton.mp hlast, hd] at hspace
      cases hspace
  have hsplit : u ++ [d] ++ behind = u ++ d :: behind := by simp
  rw [hsplit, Io.atof_append ⟨e, hu, hspace⟩ hd, Io.atof_append ⟨e, hu, hspace⟩ hd]

theorem endsSpace_items {isTrain : Bool} (h : CriteoHead isTrain) (items : List Item) :
    EndsSpace (h.columns ++ items.flatMap Item.text) := by
  rcases List.eq_nil_or_concat' items with rfl | ⟨items, item, rfl⟩
  · obtain ⟨u, hu⟩ := h.exists_columns_eq
    exact ⟨u, 9, by rw [List.flatMap_nil, List.append_nil, hu], rfl⟩
  · have hitem : EndsSpace item.text := by
      cases item with
      | blank d hd => exact ⟨[], d, rfl, hd⟩
      | word w d hd _ => exact ⟨w.1, d, rfl, hd⟩
    rw [List.flatMap_append, List.flatMap_singleton, ← List.append_assoc]
    exact hitem.append _

theorem endsSpace_row {isTrain : Bool} (r : CriteoRow isTrain) :
    EndsSpace (r.columns ++ r.tail) := by
  rw [CriteoRow.tail]
  cases r.stop with
  | none =>
      rw [Option.toList_none, List.flatMap_nil, List.append_nil]
      exact endsSpace_items _ _
  | some s =>
      have hstop : EndsSpace (s.1.1 ++ [s.2.1]) := ⟨s.1.1, s.2.1, rfl, isspace_of_isEol s.2.2⟩
      rw [Option.toList_some, List.flatMap_singleton, ← List.append_assoc]
      exact hstop.append _

theorem endsSpace_rows {isTrain : Bool} (r : CriteoRow isTrain) (rs : List (CriteoRow isTrain)) :
    EndsSpace (r.columns ++ (r.tail ++ rs.flatMap CriteoRow.text)) := by
  rw [← List.append_assoc]
  rcases List.eq_nil_or_concat' rs with rfl | ⟨rs, r', rfl⟩
  · rw [List.flatMap_nil, List.append_nil]
    exact endsSpace_row r
  · have hrow : EndsSpace r'.text := by
      rw [CriteoRow.text, CriteoHead.text, List.append_assoc]
      exact (endsSpace_row r').append _
    rw [List.flatMap_append, List.flatMap_singleton]
    exact (hrow.append _).append _

/-- The rows of such a chunk do not depend on the memory behind it. -/
theorem rowsOf_eq (rs : List (CriteoRow c.isTrain)) (h : c.isTrain = true → Labelled rs)
    (behind : List UInt8) : c.rowsOf behind rs = c.rowsOf [] rs := by
  induction rs with
  | nil => rfl
  | cons r rs ih =>
      have hvalue : r.value (r.tail ++ (rs.flatMap CriteoRow.text ++ behind)) =
          r.value (r.tail ++ (rs.flatMap CriteoRow.text ++ [])) := by
        rw [CriteoHead.value, CriteoHead.value]
        by_cases htrain : c.isTrain = true
        · have hatof := (endsSpace_rows r rs).atof_append (h htrain).1 behind
          simp only [List.append_assoc] at hatof
          rw [if_pos htrain, if_pos htrain, List.append_nil, hatof]
        · rw [if_neg htrain, if_neg htrain]
      rw [rowsOf, rowsOf, CriteoRow.row, CriteoRow.row, hvalue, ih fun htrain => (h htrain).2]

theorem contained_of_completes (h : Completes c.isTrain t) : Contained c t := by
  obtain ⟨rs, hwhole, hlabelled, rfl⟩ := h
  by_cases hne : rs = []
  · subst hne
    exact .inl ⟨"", fun behind => rfl⟩
  · refine .inr ⟨.ofRows (c.rowsOf [] rs), fun behind => ⟨.inside [] behind, ?_, le_rfl⟩⟩
    rw [parse_rows rs hwhole hne behind, rowsOf_eq rs hlabelled]

end Completes

/-! ## Behind the chunk -/

/-- Memory that leads the parser on: a line end, and then blanks. -/
def decoy : List UInt8 := 10 :: List.replicate 40 32

/-- The parser is behind the chunk, among `m` blanks. -/
structure Past (m : ℕ) (s : State) : Prop where
  left_neg : s.p.left < 0
  mem_eq : s.p.mem = List.replicate m 32

/-- The parser looks for a tab for ever, or it is behind the chunk among at least `m` blanks. -/
def Lost (m : ℕ) (x : Except ParseFault State) : Prop :=
  x = .error .runaway ∨ ∃ s n, x = .ok s ∧ m ≤ n ∧ Past n s

/-- A row with which the parser leaves the chunk. -/
def Stray (c : CriteoParser) (t : List UInt8) : Prop :=
  ∀ blk, Lost 0 (c.row { p := .inside t decoy, blk })

section Past

variable {c : CriteoParser} {m n i : ℕ} {s : State}

theorem Past.find_eq (h : Past m s) : s.p.find 9 = none := by
  refine Ptr.find_eq_none h.left_neg ?_
  rw [h.mem_eq]
  exact fun hmem => absurd (List.eq_of_mem_replicate hmem) (by decide)

/-- One byte further. -/
theorem Past.add_one (h : Past (m + 1) s) (blk : Container) : Past m { p := s.p.add 1, blk } where
  left_neg := by
    have hleft := h.left_neg
    rw [Ptr.left_add]
    omega
  mem_eq := by
    have hmem : (s.p.add 1).mem = s.p.mem.drop 1 := rfl
    rw [hmem, h.mem_eq, List.drop_replicate, Nat.add_sub_cancel]

theorem Lost.bind {k : ℕ} {x : Except ParseFault State} {f : State → Except ParseFault State}
    (hx : Lost k x) (hf : ∀ n s, k ≤ n → Past n s → Lost m (f s)) : Lost m (x.bind f) := by
  rcases hx with rfl | ⟨s, n, rfl, hn, hs⟩
  · exact .inl rfl
  · exact hf n s hn hs

theorem Past.intFeatures_eq (h : Past m s) :
    c.intFeatures (n + 1) i s = .error .runaway := by
  rw [intFeatures, intFeature, h.find_eq]
  rfl

/-- No row is found behind the chunk. -/
theorem Past.columns_eq (h : Past m s) : c.columns s = .error .runaway := by
  rw [columns, label]
  by_cases htrain : c.isTrain = true
  · rw [if_pos htrain, h.find_eq]
    rfl
  · have hpast : Past m { s with blk := { s.blk with label := s.blk.label ++ [0] } } :=
      ⟨h.left_neg, h.mem_eq⟩
    rw [if_neg htrain]
    change (c.intFeatures 13 0 _).bind _ = _
    rw [hpast.intFeatures_eq]
    rfl

theorem Past.row_eq (h : Past m s) : c.row s = .error .runaway := by
  have hskip : s.p.skip isEol = s.p.add 0 := by
    rw [Ptr.skip, h.mem_eq, List.takeWhile_replicate]
    rfl
  have hneg : (s.p.add 0).left < 0 := by
    have hleft := h.left_neg
    rw [Ptr.left_add]
    omega
  have hpast : Past m { s with p := s.p.add 0 } := ⟨hneg, h.mem_eq⟩
  have hleft : (s.p.add 0).left ≠ 0 := hpast.left_neg.ne
  simp only [row, hskip, if_neg hleft, hpast.columns_eq]

/-- Blanks are taken for empty columns. -/
theorem Past.catFeatures_lost (h : Past m s) (hn : n ≤ m) : Lost 0 (c.catFeatures n i s) := by
  induction n generalizing i m s with
  | zero => exact .inr ⟨s, m, rfl, Nat.zero_le _, h⟩
  | succ n ih =>
      obtain ⟨m, rfl⟩ := Nat.exists_eq_add_of_lt (Nat.lt_of_lt_of_le (Nat.zero_lt_succ n) hn)
      rw [Nat.zero_add] at hn h
      have hget : s.p.get = 32 := by
        rw [Ptr.get, h.mem_eq]
        rfl
      have hspace : isspace 32 = true := rfl
      rw [catFeatures, if_neg h.left_neg.ne, hget, if_pos hspace]
      exact ih (h.add_one s.blk) (by omega)

theorem Lost.map_pushOffset {x : Except ParseFault State} (h : Lost 0 x) :
    Lost 0 (x.map State.pushOffset) := by
  rcases h with rfl | ⟨s, n, rfl, hn, hs⟩
  · exact .inl rfl
  · exact .inr ⟨s.pushOffset, n, rfl, hn, hs.left_neg, hs.mem_eq⟩

/-! ## Rows that lead out of the chunk -/

theorem past_of_add {t : List UInt8} {k : ℕ} (hk : t.length < k) (blk : Container) :
    Past (40 - (k - t.length - 1)) { p := (Ptr.inside t decoy).add k, blk } where
  left_neg := by
    rw [Ptr.left_add, Ptr.left_inside]
    omega
  mem_eq := by
    have hmem : ((Ptr.inside t decoy).add k).mem = (t ++ decoy).drop k := rfl
    obtain ⟨j, hj⟩ := Nat.exists_eq_add_of_lt hk
    have hdrop : k = t.length + (j + 1) := by omega
    have hsub : k - t.length - 1 = j := by omega
    rw [hmem, hdrop, ← List.drop_drop, List.drop_left, decoy, List.drop_succ_cons,
      List.drop_replicate, ← hdrop, hsub]

/-- A search that runs to the end of the chunk is taken up behind it. -/
theorem past_of_end (blk : Container) : Past 40 { p := (Ptr.inside [] decoy).add 1, blk } :=
  past_of_add (t := []) (k := 1) Nat.zero_lt_one blk

/-- Line ends up to the end of the chunk. -/
theorem stray_eols {t : List UInt8} (ht : ∀ d ∈ t, isEol d = true) : Stray c t := by
  intro blk
  have hturns : (t ++ decoy).takeWhile isEol = t ++ [10] := by
    rw [List.takeWhile_append_of_pos ht]
    rfl
  have hskip : (Ptr.inside t decoy).skip isEol = (Ptr.inside t decoy).add (t.length + 1) := by
    rw [Ptr.skip, Ptr.mem_inside, hturns, List.length_append]
    rfl
  have hpast := past_of_add (Nat.lt_succ_self t.length) blk
  simp only [row, hskip, if_neg hpast.left_neg.ne]
  exact .inl hpast.columns_eq

theorem find_end {t : List UInt8} (ht : 9 ∉ t) :
    (Ptr.inside t decoy).find 9 = some (.inside [] decoy) := by
  have hfind : (Ptr.inside (t ++ []) decoy).find 9 = some (.inside [] decoy) :=
    Ptr.find_inside ht (by simp)
  rw [List.append_nil] at hfind
  exact hfind

/-- A label without a tab. -/
theorem stray_label {eols t : List UInt8} (htrain : c.isTrain = true)
    (heols : ∀ d ∈ eols, isEol d = true) (ht : t ≠ []) (hfirst : isEol (t.headD 0) = false)
    (htab : 9 ∉ t) : Stray c (eols ++ t) := by
  intro blk
  have hleft : (Ptr.inside [] decoy).left ≠ (Ptr.inside t decoy).left := by
    have hpos := List.length_pos_iff.mpr ht
    rw [Ptr.left_inside, Ptr.left_inside, List.length_nil]
    omega
  obtain ⟨blk', hlabel⟩ : ∃ blk', c.label { p := .inside t decoy, blk } =
      .ok { p := (Ptr.inside [] decoy).add 1, blk := blk' } := by
    rw [label, if_pos htrain, find_end htab]
    exact ⟨_, if_neg hleft⟩
  have hints : c.intFeatures 13 0 { p := (Ptr.inside [] decoy).add 1, blk := blk' } =
      .error .runaway := (past_of_end blk').intFeatures_eq
  rw [row_skip heols ht hfirst, columns, hlabel]
  simp only [Except.bind, hints]
  exact .inl rfl

/-- An integer column without a tab. -/
theorem intFeatures_lost {cols : List (List UInt8)} {t : List UInt8} (hcols : ∀ col ∈ cols, 9 ∉ col)
    (ht : 9 ∉ t) (blk : Container) :
    Lost 40 (c.intFeatures (cols.length + (n + 1)) i
      { p := .inside (cols.flatMap (· ++ [9]) ++ t) decoy, blk }) := by
  rw [intFeatures_eq hcols, intFeatures, intFeature, find_end ht]
  refine Lost.bind (k := 40) (.inr ⟨_, 40, rfl, le_rfl, past_of_end _⟩) fun m s hm hs => ?_
  cases n with
  | zero => exact .inr ⟨s, m, rfl, hm, hs⟩
  | succ n => exact .inl hs.intFeatures_eq

/-- A categorical column with less than eight bytes and white space after them. -/
theorem catFeatures_lost {t : List UInt8} (ht : t ≠ []) (hfirst : isspace (t.headD 0) = false)
    (hlen : t.length ≤ 8) (hn : n < 26) (blk : Container) :
    Lost 0 (c.catFeatures (n + 1) i { p := .inside t decoy, blk }) := by
  have hpos := List.length_pos_iff.mpr ht
  have hleft : (Ptr.inside t decoy).left ≠ 0 := by
    rw [Ptr.left_inside]
    omega
  have hget : (Ptr.inside t decoy).get = t.headD 0 := Ptr.get_inside_of_ne_nil ht
  have hspace : isspace ((Ptr.inside t decoy).add 8).get = true := by
    have hall : ∀ j < 8, isspace ((decoy.drop j).headD 0) = true := by decide
    have hmem : ((Ptr.inside t decoy).add 8).get = ((t ++ decoy).drop 8).headD 0 := rfl
    rw [hmem, List.drop_append, List.drop_eq_nil_of_le hlen, List.nil_append]
    exact hall _ (by omega)
  have hfalse : ¬isspace (t.headD 0) = true := by
    rw [hfirst]
    exact Bool.false_ne_true
  have hpast (blk : Container) := past_of_add (Nat.lt_succ_of_le hlen) blk
  simp only [catFeatures, if_neg hleft, hget, if_neg hfalse, hspace, if_true, Ptr.add_add]
  split
  · exact .inr ⟨_, _, rfl, Nat.zero_le _, hpast _⟩
  · exact (hpast _).catFeatures_lost (by omega)

/-- **A parser that has left the chunk** does not come back. -/
theorem parse_stray (rs : List (CriteoRow c.isTrain)) {t : List UInt8} (ht : t ≠ [])
    (hrs : CriteoRow.Whole t rs) (hstray : Stray c t) :
    c.parse { bytes := rs.flatMap CriteoRow.text ++ t, behind := decoy } = .error .runaway := by
  have hpos := List.length_pos_iff.mpr ht
  have hbytes : (rs.flatMap CriteoRow.text ++ t).length ≠ 0 := by
    rw [List.length_append]
    omega
  have hend : atEnd { p := .inside t decoy
                      blk := .ofRows ([] ++ c.rowsOf (t ++ decoy) rs) } = false := by
    rw [atEnd, decide_eq_false_iff_not, Ptr.left_inside]
    omega
  have hrun := run_rows rs hrs decoy []
  rw [parse, if_neg hbytes]
  rcases hstray (.ofRows ([] ++ c.rowsOf (t ++ decoy) rs)) with herror | ⟨s, n, hs, -, hpast⟩
  · exact whileLoop_eq_error row_lt hrun hend herror (Nat.lt_succ_self _)
  · have hend' : atEnd s = false := by
      rw [atEnd, decide_eq_false_iff_not]
      exact hpast.left_neg.ne
    exact whileLoop_eq_error row_lt (hrun.tail ⟨hend, hs⟩) hend' hpast.row_eq
      (Nat.lt_succ_self _)

end Past

/-! ## Every chunk -/

/-- A text has some columns that end with tabs, or less. -/
theorem ints_cases (n : ℕ) (t : List UInt8) :
    (∃ (cols : List (List UInt8)) (u : List UInt8), cols.length = n ∧ (∀ col ∈ cols, 9 ∉ col) ∧
      t = cols.flatMap (· ++ [9]) ++ u) ∨
    ∃ (cols : List (List UInt8)) (k : ℕ) (u : List UInt8), cols.length + (k + 1) = n ∧
      (∀ col ∈ cols, 9 ∉ col) ∧ 9 ∉ u ∧ t = cols.flatMap (· ++ [9]) ++ u := by
  induction n generalizing t with
  | zero => exact .inl ⟨[], t, rfl, by simp, rfl⟩
  | succ n ih =>
      by_cases htab : 9 ∈ t
      · obtain ⟨col, v, rfl, hcol⟩ := List.eq_append_cons_of_mem htab
        have hcons (cols : List (List UInt8)) (hcols : ∀ col ∈ cols, 9 ∉ col) :
            ∀ col' ∈ col :: cols, 9 ∉ col' := by
          intro col' hcol'
          rcases List.mem_cons.mp hcol' with rfl | hmem
          · exact hcol
          · exact hcols col' hmem
        rcases ih v with ⟨cols, u, hlen, hcols, rfl⟩ | ⟨cols, k, u, hlen, hcols, hu, rfl⟩
        · exact .inl ⟨col :: cols, u, by rw [List.length_cons, hlen], hcons cols hcols, by simp⟩
        · refine .inr ⟨col :: cols, k, u, ?_, hcons cols hcols, hu, by simp⟩
          rw [List.length_cons, ← hlen]
          omega
      · exact .inr ⟨[], n, t, by rw [List.length_nil, Nat.zero_add], by simp, htab, rfl⟩

/-- Where the loop over the categorical columns ends before the last of them. -/
inductive Halt : List UInt8 → Prop
  | chunkEnd : Halt []
  | lineEnd (w : Word) (d : UInt8) (hd : isEol d = true) (t : List UInt8) : Halt (w.1 ++ d :: t)
  | long (w : Word) (d : UInt8) (hd : isspace d = false) (t : List UInt8) : Halt (w.1 ++ d :: t)
  | short (t : List UInt8) (ht : t ≠ []) (hfirst : isspace (t.headD 0) = false)
      (hlen : t.length ≤ 8) : Halt t

theorem items_cases (n : ℕ) (t : List UInt8) :
    ∃ (items : List Item) (u : List UInt8), t = items.flatMap Item.text ++ u ∧
      (items.length = n ∨ items.length < n ∧ Halt u) := by
  induction n generalizing t with
  | zero => exact ⟨[], t, rfl, .inl rfl⟩
  | succ n ih =>
      cases t with
      | nil => exact ⟨[], [], rfl, .inr ⟨Nat.zero_lt_succ n, .chunkEnd⟩⟩
      | cons e t =>
          have hcons (item : Item) (v : List UInt8) (hv : e :: t = item.text ++ v) :
              ∃ (items : List Item) (u : List UInt8), e :: t = items.flatMap Item.text ++ u ∧
                (items.length = n + 1 ∨ items.length < n + 1 ∧ Halt u) := by
            obtain ⟨items, u, rfl, hitems⟩ := ih v
            refine ⟨item :: items, u, ?_, ?_⟩
            · rw [hv, List.flatMap_cons, List.append_assoc]
            · rw [List.length_cons]
              exact hitems.imp (congrArg (· + 1)) fun h => ⟨Nat.succ_lt_succ h.1, h.2⟩
          cases hspace : isspace e with
          | true => exact hcons (.blank e hspace) t rfl
          | false =>
              by_cases hlen : t.length < 8
              · exact ⟨[], e :: t, rfl,
                  .inr ⟨Nat.zero_lt_succ n, .short _ (by simp) hspace hlen⟩⟩
              · obtain ⟨w, d, v, hw, rfl⟩ : ∃ w d v, w.length = 7 ∧ t = w ++ d :: v := by
                  have hne : t.drop 7 ≠ [] := by
                    rw [ne_eq, List.drop_eq_nil_iff]
                    omega
                  obtain ⟨d, v, hdrop⟩ := List.exists_cons_of_ne_nil hne
                  refine ⟨t.take 7, d, v, ?_, ?_⟩
                  · rw [List.length_take]
                    omega
                  · rw [← hdrop, List.take_append_drop]
                have hword : (e :: w).length = 8 := congrArg (· + 1) hw
                cases hd : isspace d with
                | false =>
                    exact ⟨[], _, rfl, .inr ⟨Nat.zero_lt_succ n,
                      .long ⟨e :: w, hword, hspace⟩ d hd v⟩⟩
                | true =>
                    cases hd' : isEol d with
                    | false =>
                        exact hcons (.word ⟨e :: w, hword, hspace⟩ d hd hd') v (by simp [Item.text])
                    | true =>
                        exact ⟨[], _, rfl, .inr ⟨Nat.zero_lt_succ n,
                          .lineEnd ⟨e :: w, hword, hspace⟩ d hd' v⟩⟩

theorem headD_append {s t : List UInt8} (hs : s ≠ []) : (s ++ t).headD 0 = s.headD 0 := by
  obtain ⟨d, s, rfl⟩ := List.exists_cons_of_ne_nil hs
  rfl

section Cases

variable {c : CriteoParser} {t : List UInt8}

/-- What follows a label: an integer column without a tab, or all of them. -/
theorem head_cases_of_label {eols text : List UInt8} (heols : ∀ d ∈ eols, isEol d = true)
    (htext : c.isTrain = true → text ≠ []) (htab : 9 ∉ text)
    (hfirst : isEol (((if c.isTrain then text ++ [9] else []) ++ t).headD 0) = false)
    (hne : (if c.isTrain then text ++ [9] else []) ++ t ≠ []) :
    Stray c (eols ++ ((if c.isTrain then text ++ [9] else []) ++ t)) ∨
      ∃ (h : CriteoHead c.isTrain) (u : List UInt8),
        eols ++ ((if c.isTrain then text ++ [9] else []) ++ t) = h.text ++ u := by
  rcases ints_cases 13 t with ⟨cols, u, hlen, hcols, rfl⟩ | ⟨cols, k, u, hlen, hcols, hu, rfl⟩
  · refine .inr ⟨{ eols, label := text, ints := cols, isEol_of_mem := heols, label_ne := htext
                   label_tab := htab, length_ints := hlen, ints_tab := hcols, first := ?_ }, u, ?_⟩
    · have hints : cols.flatMap (· ++ [9]) ≠ [] := by
        cases cols with
        | nil => cases hlen
        | cons col cols => simp
      rw [← List.append_assoc, headD_append (by simp [hints])] at hfirst
      exact hfirst
    · simp [CriteoHead.text, CriteoHead.columns]
  · refine .inl fun blk => ?_
    have hints (blk : Container) : Lost 40 (c.intFeatures 13 0
        { p := .inside (cols.flatMap (· ++ [9]) ++ u) decoy, blk }) := by
      rw [← hlen]
      exact intFeatures_lost hcols hu blk
    rw [row_skip heols hne hfirst, columns, label_eq htext htab]
    exact (hints _).bind fun n s hn hs => (hs.catFeatures_lost (by omega)).map_pushOffset

/-- The beginning of a row. -/
theorem head_cases (ht : t ≠ []) : Failing c.isTrain t ∨ Stray c t ∨
    ∃ (h : CriteoHead c.isTrain) (u : List UInt8), t = h.text ++ u := by
  obtain ⟨eols, v, rfl, heols, hv⟩ : ∃ eols v, t = eols ++ v ∧ (∀ d ∈ eols, isEol d = true) ∧
      (v = [] ∨ v ≠ [] ∧ isEol (v.headD 0) = false) := by
    refine ⟨t.takeWhile isEol, t.dropWhile isEol, List.takeWhile_append_dropWhile.symm,
      fun _ => List.mem_takeWhile_imp, ?_⟩
    by_cases hnil : t.dropWhile isEol = []
    · exact .inl hnil
    · have hhead := List.head_dropWhile_not isEol hnil
      obtain ⟨d, ds, heq⟩ := List.exists_cons_of_ne_nil hnil
      simp only [heq, List.head_cons] at hhead
      exact .inr ⟨hnil, by rw [heq, List.headD_cons, hhead]⟩
  rcases hv with rfl | ⟨hne, hfirst⟩
  · rw [List.append_nil]
    exact .inr (.inl (stray_eols heols))
  · by_cases htrain : c.isTrain = true
    · by_cases htab : 9 ∈ v
      · obtain ⟨text, w, rfl, htext⟩ := List.eq_append_cons_of_mem htab
        by_cases hnil : text = []
        · subst hnil
          exact .inl (.noLabel htrain eols heols w)
        · have hcases := head_cases_of_label (c := c) (t := w) heols (fun _ => hnil) htext
          rw [if_pos htrain, List.append_assoc] at hcases
          exact .inr (hcases hfirst hne)
      · exact .inr (.inl (stray_label htrain heols hne hfirst htab))
    · have htab : 9 ∉ ([] : List UInt8) := List.not_mem_nil
      have hcases := head_cases_of_label (c := c) (t := v) heols (fun h => absurd h htrain) htab
      rw [if_neg htrain, List.nil_append] at hcases
      exact .inr (hcases hfirst hne)

/-- **A turn of the loop** takes a row, fails a check or leaves the chunk. -/
theorem row_cases (ht : t ≠ []) : Failing c.isTrain t ∨ Stray c t ∨
    ∃ (r : CriteoRow c.isTrain) (u : List UInt8), t = r.text ++ u ∧ (r.Complete ∨ u = []) := by
  rcases head_cases (c := c) ht with hfailing | hstray | ⟨h, v, rfl⟩
  · exact .inl hfailing
  · exact .inr (.inl hstray)
  · obtain ⟨items, u, rfl, hlen | ⟨hlt, hhalt⟩⟩ := items_cases 26 v
    · refine .inr (.inr ⟨{ h with items, stop := none, length_le := hlen.le }, u, ?_,
        .inl (.inl hlen)⟩)
      simp [CriteoRow.text, CriteoRow.tail]
    · cases hhalt with
      | chunkEnd =>
          refine .inr (.inr ⟨{ h with items, stop := none, length_le := hlt.le }, [], ?_, .inr rfl⟩)
          simp [CriteoRow.text, CriteoRow.tail]
      | lineEnd w d hd u =>
          refine .inr (.inr ⟨{ h with items, stop := some (w, ⟨d, hd⟩), length_le := hlt }, u, ?_,
            .inl (.inr rfl)⟩)
          simp [CriteoRow.text, CriteoRow.tail]
      | long w d hd u => exact .inl (.long h items hlt w d hd u)
      | short u hu hfirst hlen =>
          refine .inr (.inl fun blk => ?_)
          have hturns : 26 = items.length + (25 - items.length + 1) := by omega
          rw [row_head, hturns, catFeatures_eq]
          exact (catFeatures_lost hu hfirst hlen (by omega) _).map_pushOffset

/-- **Every chunk** consists of rows, or of complete rows and one with which the parser fails a
check or leaves the chunk. -/
theorem chunk_cases (c : CriteoParser) (t : List UInt8) :
    (∃ rs : List (CriteoRow c.isTrain), CriteoRow.Whole [] rs ∧ t = rs.flatMap CriteoRow.text) ∨
      ∃ (rs : List (CriteoRow c.isTrain)) (u : List UInt8), u ≠ [] ∧ CriteoRow.Whole u rs ∧
        (Failing c.isTrain u ∨ Stray c u) ∧ t = rs.flatMap CriteoRow.text ++ u := by
  induction hn : t.length using Nat.strong_induction_on generalizing t with
  | _ n ih =>
      by_cases ht : t = []
      · exact .inl ⟨[], trivial, ht⟩
      · rcases row_cases (c := c) ht with hfailing | hstray | ⟨r, u, rfl, hr⟩
        · exact .inr ⟨[], t, ht, trivial, .inl hfailing, rfl⟩
        · exact .inr ⟨[], t, ht, trivial, .inr hstray, rfl⟩
        · have hlt : u.length < n := by
            have hpos := List.length_pos_iff.mpr r.text_ne
            rw [← hn, List.length_append]
            omega
          rcases ih u.length hlt u rfl with ⟨rs, hrs, rfl⟩ | ⟨rs, v, hv, hrs, hcases, rfl⟩
          · refine .inl ⟨r :: rs, ⟨?_, hrs⟩, rfl⟩
            rwa [List.append_nil]
          · refine .inr ⟨r :: rs, v, hv, ⟨hr, hrs⟩, hcases, ?_⟩
            rw [List.flatMap_cons, List.append_assoc]

/-- Labels that are blank up to the end of the chunk are read behind it. -/
theorem labelled_of_labels (htrain : c.isTrain = true) (rs : List (CriteoRow c.isTrain))
    (h : (c.rowsOf [] rs).map InputRow.label = (c.rowsOf [49] rs).map InputRow.label) :
    Labelled rs := by
  induction rs with
  | nil => trivial
  | cons r rs ih =>
      rw [rowsOf, rowsOf, List.map_cons, List.map_cons, List.cons.injEq] at h
      obtain ⟨hvalue, hrest⟩ := h
      refine ⟨?_, ih hrest⟩
      by_contra hblank
      have hspace : ∀ d ∈ r.columns ++ (r.tail ++ rs.flatMap CriteoRow.text),
          isspace d = true := by
        simpa using hblank
      have hone : atof [] ≠ atof [49] := by decide +kernel
      have hvalue' : atof (r.columns ++ (r.tail ++ rs.flatMap CriteoRow.text) ++ []) =
          atof (r.columns ++ (r.tail ++ rs.flatMap CriteoRow.text) ++ [49]) := by
        simp only [CriteoRow.row, CriteoHead.value, if_pos htrain] at hvalue
        simp only [List.append_assoc]
        exact hvalue
      rw [atof_blank hspace, atof_blank hspace] at hvalue'
      exact hone hvalue'

/-- Rows that are parsed to the end, with labels that are found inside the chunk. -/
theorem completes_of_contained (rs : List (CriteoRow c.isTrain)) (hrs : CriteoRow.Whole [] rs)
    (h : Contained c (rs.flatMap CriteoRow.text)) :
    Completes c.isTrain (rs.flatMap CriteoRow.text) := by
  refine ⟨rs, hrs, fun htrain => ?_, rfl⟩
  by_cases hne : rs = []
  · subst hne
    trivial
  · rcases h with ⟨message, hmessage⟩ | ⟨blk, hblk⟩
    · have herror := hmessage []
      rw [parse_rows rs hrs hne] at herror
      cases herror
    · have hrows (behind : List UInt8) : blk = .ofRows (c.rowsOf behind rs) := by
        obtain ⟨p, hp, -⟩ := hblk behind
        rw [parse_rows rs hrs hne] at hp
        cases hp
        rfl
      have hlabel := congrArg RowBlockContainer.label ((hrows []).symm.trans (hrows [49]))
      exact labelled_of_labels htrain rs hlabel

end Cases

/-- **The chunks in which the parser stays** are those that consist of rows, and those in which a
row fails a check. -/
theorem contained_iff (c : CriteoParser) (chunk : List UInt8) :
    Contained c chunk ↔ Completes c.isTrain chunk ∨ Aborts c.isTrain chunk := by
  constructor
  · intro h
    rcases chunk_cases c chunk with ⟨rs, hrs, rfl⟩ | ⟨rs, t, ht, hrs, hfailing | hstray, rfl⟩
    · exact .inl (completes_of_contained rs hrs h)
    · exact .inr ⟨rs, t, hrs, hfailing, rfl⟩
    · have hlost := parse_stray rs ht hrs hstray
      rcases h with ⟨message, hmessage⟩ | ⟨blk, hblk⟩
      · have herror := (hmessage decoy).symm.trans hlost
        cases herror
      · obtain ⟨p, hp, -⟩ := hblk decoy
        have herror := hp.symm.trans hlost
        cases herror
  · rintro (hcompletes | haborts)
    · exact contained_of_completes hcompletes
    · exact contained_of_aborts haborts

/-- A line with the label 1 and nothing else that ends with `\r\n`, up to the `\n`. -/
def crlfRow : CriteoRow true where
  eols := []
  label := [49]
  ints := List.replicate 13 []
  items := List.replicate 25 (.blank 9 rfl) ++ [.blank 13 rfl]
  stop := none
  isEol_of_mem := by simp
  label_ne := by decide
  label_tab := by decide
  length_ints := rfl
  ints_tab := by simp
  first := rfl
  length_le := by decide

/-- After such a line the parser looks for line ends behind the chunk. -/
theorem not_contained_crlf : ¬Contained
    { isTrain := true, cityHash64 := fun _ => 0, bytesRead := 0 }
    (49 :: (List.replicate 39 9 ++ [13, 10])) := by
  have hchunk : 49 :: (List.replicate 39 9 ++ [13, 10]) =
      [crlfRow].flatMap CriteoRow.text ++ [10] := rfl
  have hwhole : CriteoRow.Whole [10] [crlfRow] := ⟨.inl (.inl rfl), trivial⟩
  have hlost := parse_stray (c := { isTrain := true, cityHash64 := fun _ => 0, bytesRead := 0 })
    [crlfRow] (by simp) hwhole (stray_eols (List.forall_mem_singleton.mpr rfl))
  rw [hchunk]
  rintro (⟨message, hmessage⟩ | ⟨blk, hblk⟩)
  · have herror := (hmessage decoy).symm.trans hlost
    cases herror
  · obtain ⟨p, hp, -⟩ := hblk decoy
    have herror := hp.symm.trans hlost
    cases herror

end CriteoParser

end Difacto.Io
