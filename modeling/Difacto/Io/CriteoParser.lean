import Difacto.Io.InputSplit
import Difacto.Io.TextParser
import Difacto.Lib.Loop

/-!
# The criteo parser

`CriteoParser::ParseNext` of `base/criteo_parser.h` for 64-bit indices. A line of the format has a
label, 13 integer columns and 26 categorical columns, separated by tabs. The hash function
`CityHash64` is any function.

A loop that never stops ends the parser with `ParseFault.runaway`: this is how a search for a tab
ends that starts behind `end` and finds none in the memory.

## Main definitions

* `CriteoParser.parse`, `CriteoParser.parseNext` — one chunk.
* `CriteoRow` — what the parser takes for a row.
* `CriteoLine` — a line of the format.

## Main results

* `CriteoParser.row_eq` — one turn of the loop on the text of a row.
* `CriteoParser.parse_rows` — the rows of a chunk.
* `CriteoParser.parseNext_lines_iff` — the lines of a well-formed chunk are its rows, if the label
  of a line is not looked for in the columns after it.
-/

namespace Difacto.Io

open Base Lib Relation

/-- `CriteoParser`; `cityHash64` is `CityHash64`. -/
structure CriteoParser where
  isTrain : Bool
  cityHash64 : List UInt8 → UInt64
  bytesRead : UInt64

namespace CriteoParser

/-- The variables of the loop. -/
structure State where
  p : Ptr
  blk : Container

variable (c : CriteoParser)

/-- `(CityHash64(p, len) >> 10) | ((size_t)i << 54)` -/
def encode (text : List UInt8) (i : ℕ) : UInt64 :=
  c.cityHash64 text >>> 10 ||| UInt64.ofNat i <<< 54

/-- `blk.index.push_back` -/
def State.pushIndex (s : State) (idx : UInt64) : State :=
  { s with blk := { s.blk with index := s.blk.index ++ [idx] } }

/-- Parse label. -/
def label (s : State) : Except ParseFault State :=
  if c.isTrain then
    match s.p.find 9 with
    | none => .error .runaway
    | some pp =>
      if pp.left = s.p.left then .error (.check "no label.., try criteo_test")
      else .ok { p := pp.add 1, blk := { s.blk with label := s.blk.label ++ [atof s.p.mem] } }
  else .ok { s with blk := { s.blk with label := s.blk.label ++ [0] } }

/-- Parse inter feature: one turn of the loop. -/
def intFeature (i : ℕ) (s : State) : Except ParseFault State :=
  match s.p.find 9 with
  | none => .error .runaway
  | some pp =>
    let len := (s.p.left - pp.left).toNat
    let s' := if 0 < len then s.pushIndex (c.encode (s.p.bytes len) i) else s
    .ok { s' with p := pp.add 1 }

/-- The loop over the integer features from `i` on, of which `n` are left. -/
def intFeatures : ℕ → ℕ → State → Except ParseFault State
  | 0, _, s => .ok s
  | n + 1, i, s => (c.intFeature i s).bind (intFeatures n (i + 1))

/-- The message of the check of a categorical feature. -/
def message (i : ℕ) (p : Ptr) : String :=
  toString i ++ " " ++ toString p.left ++ " " ++ String.singleton (Char.ofNat p.get.toNat)

/-- Parse categorty feature: the loop over the features from `i` on, of which `n` are left. -/
def catFeatures : ℕ → ℕ → State → Except ParseFault State
  | 0, _, s => .ok s
  | n + 1, i, s =>
    if s.p.left = 0 then .ok s
    else if isspace s.p.get then catFeatures n (i + 1) { s with p := s.p.add 1 }
    else
      let pp := s.p.add 8
      if isspace pp.get then
        let s' := { s.pushIndex (c.encode (s.p.bytes 8) (i + 13)) with p := pp.add 1 }
        if isEol pp.get then .ok s' else catFeatures n (i + 1) s'
      else .error (.check (message i s.p))

/-- `blk.offset.push_back(blk.index.size())` -/
def State.pushOffset (s : State) : State :=
  { s with blk := { s.blk with offset := s.blk.offset ++ [s.blk.index.length] } }

/-- The columns of a row. -/
def columns (s : State) : Except ParseFault State :=
  (c.label s).bind fun s =>
    (c.intFeatures 13 0 s).bind fun s =>
      (c.catFeatures 26 0 s).map State.pushOffset

/-- `while (p != end)`: the body. When it breaks, `p` is `end`, so that the loop ends. -/
def row (s : State) : Except ParseFault State :=
  let s := { s with p := s.p.skip isEol }
  if s.p.left = 0 then .ok s else c.columns s

/-- `p == end` -/
def atEnd (s : State) : Bool := s.p.left = 0

/-- `ParseNext` after the chunk is there. -/
def parse (chunk : Blob) : Except ParseFault State :=
  if chunk.bytes.length = 0 then .error (.check "")
  else
    whileLoop atEnd c.row .runaway (chunk.dptr.mem.length + 1) { p := chunk.dptr, blk := .clear }

/-- `ParseNext`: its result, the parser and `data`. The argument `chunk` is what
`source_->NextChunk` delivers. -/
def parseNext (chunk : Option Blob) (data : List Container) :
    Except ParseFault (Bool × CriteoParser × List Container) :=
  match chunk with
  | none => .ok (false, c, data)
  | some chunk =>
    (c.parse chunk).map fun s =>
      (true, { c with bytesRead := c.bytesRead + UInt64.ofNat chunk.bytes.length }, [s.blk])

/-! ## A turn takes up memory -/

variable {c} {s s' : State}

theorem length_label (h : c.label s = .ok s') : s'.p.mem.length ≤ s.p.mem.length := by
  rw [label] at h
  split at h
  · split at h
    · cases h
    · rename_i pp hfind
      split at h
      · cases h
      · cases h
        rw [Ptr.length_mem_add]
        exact (Nat.sub_le ..).trans (Ptr.length_mem_find_le hfind)
  · cases h
    exact le_rfl

theorem length_intFeature {i : ℕ} (h : c.intFeature i s = .ok s') :
    s'.p.mem.length ≤ s.p.mem.length - 1 ∧ (s.p.mem = [] → s'.p.left < 0) := by
  rw [intFeature] at h
  split at h
  · cases h
  · rename_i pp hfind
    cases h
    refine ⟨?_, fun hmem => ?_⟩
    · have hle := Ptr.length_mem_find_le hfind
      rw [Ptr.length_mem_add]
      omega
    · have hleft := Ptr.left_find_of_nil hfind hmem
      rw [Ptr.left_add]
      omega

theorem length_intFeatures {n i : ℕ} (h : c.intFeatures n i s = .ok s') :
    s'.p.mem.length ≤ s.p.mem.length - n := by
  induction n generalizing i s with
  | zero =>
      cases h
      exact le_rfl
  | succ n ih =>
      obtain ⟨s₁, hs₁, hrest⟩ := exists_of_bind_eq_ok h
      have hle := (length_intFeature hs₁).1
      have hle' := ih hrest
      omega

/-- Two columns are not found where nothing but zeros follow. -/
theorem mem_ne_nil {n i : ℕ} (h : c.intFeatures (n + 2) i s = .ok s') : s.p.mem ≠ [] := by
  intro hmem
  obtain ⟨s₁, hs₁, hrest⟩ := exists_of_bind_eq_ok h
  obtain ⟨s₂, hs₂, -⟩ := exists_of_bind_eq_ok hrest
  have hshape := length_intFeature hs₁
  have hmem' : s₁.p.mem = [] := by
    rw [hmem] at hshape
    exact List.length_eq_zero_iff.mp (Nat.le_zero.mp hshape.1)
  have hnone : s₁.p.find 9 = none := Ptr.find_eq_none (hshape.2 hmem) (by simp [hmem'])
  rw [intFeature, hnone] at hs₂
  cases hs₂

theorem length_catFeatures {n i : ℕ} (h : c.catFeatures n i s = .ok s') :
    s'.p.mem.length ≤ s.p.mem.length := by
  induction n generalizing i s with
  | zero =>
      cases h
      exact le_rfl
  | succ n ih =>
      rw [catFeatures] at h
      split at h
      · cases h
        exact le_rfl
      · split at h
        · refine (ih h).trans ?_
          rw [Ptr.length_mem_add]
          exact Nat.sub_le ..
        · simp only at h
          split at h
          · split at h
            · cases h
              rw [Ptr.length_mem_add, Ptr.length_mem_add]
              omega
            · refine (ih h).trans ?_
              rw [Ptr.length_mem_add, Ptr.length_mem_add]
              omega
          · cases h

/-- A turn of the loop takes up memory. -/
theorem row_lt (s s' : State) (h : Turn atEnd c.row s s') :
    s'.p.mem.length < s.p.mem.length := by
  obtain ⟨hend, hrow⟩ := h
  have hskip : (s.p.skip isEol).mem.length ≤ s.p.mem.length := Ptr.length_mem_skip_le
  simp only [row] at hrow
  split at hrow
  · rename_i hleft
    cases hrow
    refine Ptr.length_mem_skip_lt ?_
    rw [hleft]
    exact fun h => of_decide_eq_false hend h.symm
  · obtain ⟨s₁, hlabel, hrest⟩ := exists_of_bind_eq_ok hrow
    obtain ⟨s₂, hints, hrest⟩ := exists_of_bind_eq_ok hrest
    obtain ⟨s₃, hcats, hoffset⟩ := exists_of_map_eq_ok hrest
    have hle₁ : s₁.p.mem.length ≤ (s.p.skip isEol).mem.length := length_label hlabel
    have hle₂ := length_intFeatures hints
    have hle₃ := length_catFeatures hcats
    have hne := List.length_pos_iff.mpr (mem_ne_nil hints)
    have heq : s'.p = s₃.p := by rw [← hoffset, State.pushOffset]
    rw [heq]
    omega

/-! ## Columns -/

/-- The indices of columns from number `i` on, of which the empty ones are left out. -/
def codes (c : CriteoParser) : ℕ → List (List UInt8) → List UInt64
  | _, [] => []
  | i, text :: texts => (if text = [] then [] else [c.encode text i]) ++ codes c (i + 1) texts

theorem codes_append (i : ℕ) (texts texts' : List (List UInt8)) :
    c.codes i (texts ++ texts') = c.codes i texts ++ c.codes (i + texts.length) texts' := by
  induction texts generalizing i with
  | nil => rfl
  | cons text texts ih =>
      rw [List.cons_append, codes, codes, ih, List.append_assoc, List.length_cons,
        Nat.add_right_comm, Nat.add_assoc]

/-- More indices. -/
def extend (blk : Container) (ids : List UInt64) : Container :=
  { blk with index := blk.index ++ ids }

theorem extend_extend (blk : Container) (ids ids' : List UInt64) :
    extend (extend blk ids) ids' = extend blk (ids ++ ids') := by
  simp [extend]

theorem extend_nil (blk : Container) : extend blk [] = blk := by
  simp [extend]

section Columns

variable {t behind : List UInt8} {blk : Container} {i n : ℕ}

theorem intFeature_eq {text : List UInt8} (htext : 9 ∉ text) :
    c.intFeature i { p := .inside (text ++ 9 :: t) behind, blk } =
      .ok { p := .inside t behind
            blk := extend blk (if text = [] then [] else [c.encode text i]) } := by
  have hfind : (Ptr.inside (text ++ 9 :: t) behind).find 9 = some (.inside (9 :: t) behind) :=
    Ptr.find_inside htext (by simp)
  have hlen : ((Ptr.inside (text ++ 9 :: t) behind).left -
      (Ptr.inside (9 :: t) behind).left).toNat = text.length := by
    rw [Ptr.left_inside, Ptr.left_inside, List.length_append]
    omega
  simp only [intFeature, hfind, hlen, Ptr.bytes_inside, Ptr.add_one_inside]
  by_cases hne : text = []
  · subst hne
    rw [List.length_nil, if_neg (Nat.lt_irrefl 0), if_pos rfl, extend_nil]
  · rw [if_pos (List.length_pos_iff.mpr hne), if_neg hne]
    rfl

/-- The loop over integer columns that end with tabs. -/
theorem intFeatures_eq {texts : List (List UInt8)} (htexts : ∀ text ∈ texts, 9 ∉ text) :
    c.intFeatures (texts.length + n) i
        { p := .inside (texts.flatMap (· ++ [9]) ++ t) behind, blk } =
      c.intFeatures n (i + texts.length)
        { p := .inside t behind, blk := extend blk (c.codes i texts) } := by
  induction texts generalizing i blk with
  | nil => rw [codes, extend_nil, List.length_nil, Nat.zero_add, List.flatMap_nil, List.nil_append,
      Nat.add_zero]
  | cons text texts ih =>
      have htext : (text :: texts).flatMap (· ++ [9]) ++ t =
          text ++ 9 :: (texts.flatMap (· ++ [9]) ++ t) := by simp
      have hlen : (text :: texts).length + n = texts.length + n + 1 := by
        rw [List.length_cons]
        omega
      rw [htext, hlen, intFeatures, intFeature_eq (htexts text (by simp))]
      change c.intFeatures (texts.length + n) (i + 1) _ = _
      rw [ih fun text' htext' => htexts text' (List.mem_cons_of_mem _ htext'), extend_extend, codes,
        List.length_cons, Nat.add_right_comm, Nat.add_assoc]

end Columns

end CriteoParser

/-! ## Rows -/

/-- A categorical column as the parser takes it: eight bytes, of which the first is not white
space. -/
abbrev Word := { w : List UInt8 // w.length = 8 ∧ isspace (w.headD 0) = false }

theorem Word.ne_nil (w : Word) : w.1 ≠ [] := by
  intro hnil
  have hlen := w.2.1
  rw [hnil] at hlen
  cases hlen

/-- A turn of the loop over the categorical columns that does not end it. -/
inductive Item
  /-- an empty column -/
  | blank (d : UInt8) (hd : isspace d = true)
  /-- a column and what ends it -/
  | word (w : Word) (d : UInt8) (hd : isspace d = true) (hd' : isEol d = false)

namespace Item

/-- The text of the column. -/
def column : Item → List UInt8
  | blank .. => []
  | word w .. => w.1

/-- What the turn takes up. -/
def text : Item → List UInt8
  | blank d _ => [d]
  | word w d .. => w.1 ++ [d]

end Item

namespace CriteoParser

section Items

variable {c : CriteoParser} {t behind : List UInt8} {blk : Container} {i n : ℕ}

/-- A turn at a byte that is not white space. -/
theorem catFeatures_word (w : Word) (d : UInt8) :
    c.catFeatures (n + 1) i { p := .inside (w.1 ++ d :: t) behind, blk } =
      if isspace d then
        if isEol d then
          .ok { p := .inside t behind, blk := extend blk [c.encode w.1 (i + 13)] }
        else
          c.catFeatures n (i + 1)
            { p := .inside t behind, blk := extend blk [c.encode w.1 (i + 13)] }
      else .error (.check (message i (.inside (w.1 ++ d :: t) behind))) := by
  have hne := w.ne_nil
  obtain ⟨w, hlen, hw⟩ := w
  have hleft : (Ptr.inside (w ++ d :: t) behind).left ≠ 0 := by
    rw [Ptr.left_inside, List.length_append, List.length_cons]
    omega
  have hget : (Ptr.inside (w ++ d :: t) behind).get = w.headD 0 := by
    obtain ⟨e, w, rfl⟩ := List.exists_cons_of_ne_nil (l := w) hne
    rfl
  have hadd : (Ptr.inside (w ++ d :: t) behind).add 8 = .inside (d :: t) behind := by
    rw [← hlen, Ptr.add_inside]
  have hbytes : (Ptr.inside (w ++ d :: t) behind).bytes 8 = w := by
    rw [← hlen, Ptr.bytes_inside]
  simp only [catFeatures, if_neg hleft, hget, hw, hadd, hbytes, Ptr.get_inside,
    Ptr.add_one_inside]
  rfl

theorem catFeatures_blank {d : UInt8} (hd : isspace d = true) :
    c.catFeatures (n + 1) i { p := .inside (d :: t) behind, blk } =
      c.catFeatures n (i + 1) { p := .inside t behind, blk } := by
  have hleft : (Ptr.inside (d :: t) behind).left ≠ 0 := by
    rw [Ptr.left_inside, List.length_cons]
    omega
  simp only [catFeatures, if_neg hleft, Ptr.get_inside, hd, if_true, Ptr.add_one_inside]

/-- The loop over categorical columns that do not end the line. -/
theorem catFeatures_eq (items : List Item) :
    c.catFeatures (items.length + n) i
        { p := .inside (items.flatMap Item.text ++ t) behind, blk } =
      c.catFeatures n (i + items.length)
        { p := .inside t behind
          blk := extend blk (c.codes (i + 13) (items.map Item.column)) } := by
  induction items generalizing i blk with
  | nil => rw [List.map_nil, codes, extend_nil, List.length_nil, Nat.zero_add, List.flatMap_nil,
      List.nil_append, Nat.add_zero]
  | cons item items ih =>
      have hlen : (item :: items).length + n = items.length + n + 1 := by
        rw [List.length_cons]
        omega
      have hnum : i + 1 + 13 = i + 13 + 1 := by omega
      have hnum' : i + 1 + items.length = i + (item :: items).length := by
        rw [List.length_cons]
        omega
      cases item with
      | blank d hd =>
          have htext : (Item.blank d hd :: items).flatMap Item.text ++ t =
              d :: (items.flatMap Item.text ++ t) := rfl
          rw [hlen, htext, catFeatures_blank hd, ih, hnum, hnum', List.map_cons, codes]
          rfl
      | word w d hd hd' =>
          have htext : (Item.word w d hd hd' :: items).flatMap Item.text ++ t =
              w.1 ++ d :: (items.flatMap Item.text ++ t) := by
            simp [Item.text]
          rw [hlen, htext, catFeatures_word, if_pos hd, hd', if_neg Bool.false_ne_true, ih,
            extend_extend, hnum, hnum', List.map_cons, codes, Item.column, if_neg w.ne_nil]

end Items

end CriteoParser

/-- The line ends before a row, its label and its integer columns. There is no label in the test
mode. -/
structure CriteoHead (isTrain : Bool) where
  eols : List UInt8
  label : List UInt8
  ints : List (List UInt8)
  isEol_of_mem : ∀ d ∈ eols, isEol d = true
  label_ne : isTrain = true → label ≠ []
  label_tab : 9 ∉ label
  length_ints : ints.length = 13
  ints_tab : ∀ text ∈ ints, 9 ∉ text
  first :
    isEol (((if isTrain then label ++ [9] else []) ++ ints.flatMap (· ++ [9])).headD 0) = false

namespace CriteoHead

variable {isTrain : Bool} (h : CriteoHead isTrain)

/-- The text of the columns. -/
def columns : List UInt8 := (if isTrain then h.label ++ [9] else []) ++ h.ints.flatMap (· ++ [9])

def text : List UInt8 := h.eols ++ h.columns

/-- The label, where this memory follows. -/
def value (mem : List UInt8) : Binary32 := if isTrain then atof (h.columns ++ mem) else 0

theorem ints_ne : h.ints.flatMap (· ++ [9]) ≠ [] := by
  intro hnil
  have hints := h.length_ints
  cases heq : h.ints with
  | nil => simp [heq] at hints
  | cons text texts => simp [heq] at hnil

theorem columns_ne : h.columns ≠ [] := by
  intro hnil
  exact h.ints_ne (List.append_eq_nil_iff.mp hnil).2

/-- The columns end with a tab. -/
theorem exists_columns_eq : ∃ u, h.columns = u ++ [9] := by
  rcases List.eq_nil_or_concat' h.ints with hnil | ⟨texts, text, hconcat⟩
  · exact absurd (by rw [hnil]; rfl) h.ints_ne
  · refine ⟨(if isTrain then h.label ++ [9] else []) ++ (texts.flatMap (· ++ [9]) ++ text), ?_⟩
    rw [columns, hconcat]
    simp

end CriteoHead

namespace CriteoParser

/-- A row is begun with its label. -/
def beginRow (blk : Container) (l : Binary32) : Container := { blk with label := blk.label ++ [l] }

section Head

variable {c : CriteoParser} {t behind : List UInt8} {blk : Container}

theorem label_eq {text : List UInt8} (hne : c.isTrain = true → text ≠ []) (htab : 9 ∉ text)
    (t behind : List UInt8) (blk : Container) :
    c.label { p := .inside ((if c.isTrain then text ++ [9] else []) ++ t) behind, blk } =
      .ok { p := .inside t behind
            blk := beginRow blk (if c.isTrain then
              atof ((if c.isTrain then text ++ [9] else []) ++ (t ++ behind)) else 0) } := by
  rw [label]
  by_cases htrain : c.isTrain = true
  · have htext : text ++ [9] ++ t = text ++ 9 :: t := by simp
    have hfind : (Ptr.inside (text ++ [9] ++ t) behind).find 9 =
        some (.inside (9 :: t) behind) := by
      rw [htext]
      exact Ptr.find_inside htab (by simp)
    have hleft : (Ptr.inside (9 :: t) behind).left ≠
        (Ptr.inside (text ++ [9] ++ t) behind).left := by
      have hpos := List.length_pos_iff.mpr (hne htrain)
      rw [Ptr.left_inside, Ptr.left_inside, htext, List.length_append]
      omega
    simp only [if_pos htrain, hfind, if_neg hleft, Ptr.add_one_inside, Ptr.mem_inside]
    rw [List.append_assoc]
    rfl
  · simp only [if_neg htrain]
    rfl

/-- The columns of a row up to the categorical ones. -/
theorem columns_eq (h : CriteoHead c.isTrain) :
    c.columns { p := .inside (h.columns ++ t) behind, blk } =
      (c.catFeatures 26 0
        { p := .inside t behind
          blk := extend (beginRow blk (h.value (t ++ behind))) (c.codes 0 h.ints) }).map
        State.pushOffset := by
  have hints : c.intFeatures 13 0 { p := .inside (h.ints.flatMap (· ++ [9]) ++ t) behind
                                    blk := beginRow blk (h.value (t ++ behind)) } =
      .ok { p := .inside t behind
            blk := extend (beginRow blk (h.value (t ++ behind))) (c.codes 0 h.ints) } := by
    have hloop : c.intFeatures (h.ints.length + 0) 0
        { p := .inside (h.ints.flatMap (· ++ [9]) ++ t) behind
          blk := beginRow blk (h.value (t ++ behind)) } = _ := intFeatures_eq h.ints_tab
    rw [h.length_ints] at hloop
    exact hloop
  have hlabel : c.label { p := .inside (h.columns ++ t) behind, blk } =
      .ok { p := .inside (h.ints.flatMap (· ++ [9]) ++ t) behind
            blk := beginRow blk (h.value (t ++ behind)) } := by
    have heq := label_eq h.label_ne h.label_tab (h.ints.flatMap (· ++ [9]) ++ t) behind blk
    rw [CriteoHead.value, CriteoHead.columns]
    simp only [List.append_assoc] at heq ⊢
    exact heq
  rw [columns, hlabel]
  change (c.intFeatures 13 0 _).bind _ = _
  rw [hints]
  rfl

/-- Line ends before a row are skipped. -/
theorem row_skip {eols : List UInt8} (heols : ∀ d ∈ eols, isEol d = true) (ht : t ≠ [])
    (hfirst : isEol (t.headD 0) = false) :
    c.row { p := .inside (eols ++ t) behind, blk } = c.columns { p := .inside t behind, blk } := by
  obtain ⟨d, ds, rfl⟩ := List.exists_cons_of_ne_nil ht
  have hskip : (Ptr.inside (eols ++ d :: ds) behind).skip isEol = .inside (d :: ds) behind :=
    Ptr.skip_inside heols hfirst
  have hleft : (Ptr.inside (d :: ds) behind).left ≠ 0 := by
    rw [Ptr.left_inside, List.length_cons]
    omega
  simp only [row, hskip, if_neg hleft]

theorem row_head (h : CriteoHead c.isTrain) :
    c.row { p := .inside (h.text ++ t) behind, blk } =
      (c.catFeatures 26 0
        { p := .inside t behind
          blk := extend (beginRow blk (h.value (t ++ behind))) (c.codes 0 h.ints) }).map
        State.pushOffset := by
  obtain ⟨d, ds, heq⟩ := List.exists_cons_of_ne_nil h.columns_ne
  have hfirst : isEol ((h.columns ++ t).headD 0) = false := by
    have hfirst := h.first
    rw [← CriteoHead.columns, heq] at hfirst
    rw [heq]
    exact hfirst
  have hne : h.columns ++ t ≠ [] := by simp [heq]
  rw [CriteoHead.text, List.append_assoc, row_skip h.isEol_of_mem hne hfirst, columns_eq]

end Head

end CriteoParser

/-- A row as the parser takes it. -/
structure CriteoRow (isTrain : Bool) extends CriteoHead isTrain where
  items : List Item
  /-- a categorical column that ends the line -/
  stop : Option (Word × { d : UInt8 // isEol d = true })
  length_le : items.length + stop.toList.length ≤ 26

namespace CriteoRow

variable {isTrain : Bool} (r : CriteoRow isTrain)

/-- The text of the categorical columns. -/
def tail : List UInt8 :=
  r.items.flatMap Item.text ++ r.stop.toList.flatMap fun s => s.1.1 ++ [s.2.1]

/-- The text of a row. -/
def text : List UInt8 := r.toCriteoHead.text ++ r.tail

/-- The categorical columns. -/
def cats : List (List UInt8) := r.items.map Item.column ++ r.stop.toList.map fun s => s.1.1

/-- The row may be followed by another one. -/
def Complete : Prop := r.items.length = 26 ∨ r.stop.isSome

/-- The row that is delivered, where this memory follows. -/
def row (c : CriteoParser) (r : CriteoRow c.isTrain) (mem : List UInt8) : Row where
  label := r.value (r.tail ++ mem)
  index := c.codes 0 (r.ints ++ r.cats)
  value := none

theorem text_ne : r.text ≠ [] := by
  intro hnil
  exact r.columns_ne (List.append_eq_nil_iff.mp (List.append_eq_nil_iff.mp hnil).1).2

/-- Each of these rows is complete, or nothing follows it. -/
def Whole (t : List UInt8) : List (CriteoRow isTrain) → Prop
  | [] => True
  | r :: rs => (r.Complete ∨ rs.flatMap text ++ t = []) ∧ Whole t rs

end CriteoRow

namespace CriteoParser

theorem isspace_of_isEol {d : UInt8} (h : isEol d = true) : isspace d = true := by
  simp only [isEol, Bool.or_eq_true, beq_iff_eq] at h
  rcases h with rfl | rfl <;> rfl

/-- A row at the end of a container. -/
def addRow (blk : Container) (r : Row) : Container :=
  { blk with
    offset := blk.offset ++ [(blk.index ++ r.index).length]
    label := blk.label ++ [r.label]
    index := blk.index ++ r.index }

theorem addRow_ofRows (rows : List Row) (r : Row) (h : r.value = none) :
    addRow (.ofRows rows) r = .ofRows (rows ++ [r]) := by
  simp [addRow, RowBlockContainer.ofRows, RowBlockContainer.ends_append, RowBlockContainer.ends, h]

section Rows

variable {c : CriteoParser} {t behind : List UInt8} {blk : Container}

/-- At the end of the chunk the loop over the categorical columns breaks. -/
theorem catFeatures_end (n i : ℕ) :
    c.catFeatures n i { p := .inside [] behind, blk } = .ok { p := .inside [] behind, blk } := by
  cases n with
  | zero => rfl
  | succ n => rw [catFeatures, if_pos (by simp)]

/-- The categorical columns of a row. -/
theorem cats_eq (r : CriteoRow c.isTrain) (hr : r.Complete ∨ t = []) :
    c.catFeatures 26 0 { p := .inside (r.tail ++ t) behind, blk } =
      .ok { p := .inside t behind, blk := extend blk (c.codes 13 r.cats) } := by
  have hle := r.length_le
  have hlen : 26 = r.items.length + (26 - r.items.length) := by omega
  rw [CriteoRow.tail, CriteoRow.cats, hlen, List.append_assoc, catFeatures_eq, Nat.zero_add,
    Nat.zero_add]
  cases hstop : r.stop with
  | none =>
      simp only [Option.toList_none, List.flatMap_nil, List.nil_append, List.map_nil,
        List.append_nil]
      rcases hr with hcomplete | rfl
      · have hfull : r.items.length = 26 := hcomplete.resolve_right (by rw [hstop]; decide)
        rw [hfull]
        rfl
      · exact catFeatures_end _ _
  | some s =>
      obtain ⟨w, d, hd⟩ := s
      have hlt : 26 - r.items.length = 25 - r.items.length + 1 := by
        rw [hstop] at hle
        have hone : (some (w, (⟨d, hd⟩ : { d : UInt8 // isEol d = true }))).toList.length = 1 := rfl
        omega
      have htext : [(w, (⟨d, hd⟩ : { d : UInt8 // isEol d = true }))].flatMap
          (fun s => s.1.1 ++ [s.2.1]) ++ t = w.1 ++ d :: t := by
        simp
      rw [Option.toList_some, htext, hlt, catFeatures_word, if_pos (isspace_of_isEol hd),
        if_pos hd, extend_extend, codes_append, List.length_map, List.map_singleton, codes,
        if_neg w.ne_nil, Nat.add_comm]
      rfl

/-- **A turn of the loop** takes a row. -/
theorem row_eq (r : CriteoRow c.isTrain) (hr : r.Complete ∨ t = []) :
    c.row { p := .inside (r.text ++ t) behind, blk } =
      .ok { p := .inside t behind, blk := addRow blk (r.row c (t ++ behind)) } := by
  rw [CriteoRow.text, List.append_assoc, row_head, cats_eq r hr, extend_extend, CriteoRow.row,
    codes_append, r.length_ints, List.append_assoc]
  rfl

/-- The rows that are delivered, where this memory follows. -/
def rowsOf (c : CriteoParser) (mem : List UInt8) : List (CriteoRow c.isTrain) → List Row
  | [] => []
  | r :: rs => r.row c (rs.flatMap CriteoRow.text ++ mem) :: rowsOf c mem rs

theorem turn_row (r : CriteoRow c.isTrain) (hr : r.Complete ∨ t = []) (behind : List UInt8)
    (blk : Container) :
    Turn atEnd c.row { p := .inside (r.text ++ t) behind, blk }
      { p := .inside t behind, blk := addRow blk (r.row c (t ++ behind)) } := by
  refine ⟨?_, row_eq r hr⟩
  have hpos := List.length_pos_iff.mpr r.text_ne
  rw [atEnd, decide_eq_false_iff_not, Ptr.left_inside, List.length_append]
  omega

/-- **Some turns of the loop.** -/
theorem run_rows (rs : List (CriteoRow c.isTrain)) (hrs : CriteoRow.Whole t rs)
    (behind : List UInt8) (rows : List Row) :
    ReflTransGen (Turn atEnd c.row)
      { p := .inside (rs.flatMap CriteoRow.text ++ t) behind, blk := .ofRows rows }
      { p := .inside t behind, blk := .ofRows (rows ++ c.rowsOf (t ++ behind) rs) } := by
  induction rs generalizing rows with
  | nil =>
      rw [rowsOf, List.append_nil]
      exact .refl
  | cons r rs ih =>
      have hturn := turn_row r hrs.1 behind (.ofRows rows)
      have hrest := ih hrs.2 (rows ++ [r.row c (rs.flatMap CriteoRow.text ++ t ++ behind)])
      rw [addRow_ofRows _ _ rfl] at hturn
      rw [List.append_assoc] at hturn hrest
      rw [List.flatMap_cons, List.append_assoc, rowsOf]
      rw [List.append_assoc rows] at hrest
      exact .head hturn hrest

/-- **The rows of a chunk**, whatever is behind it. -/
theorem parse_rows (rs : List (CriteoRow c.isTrain)) (hrs : CriteoRow.Whole [] rs) (hne : rs ≠ [])
    (behind : List UInt8) :
    c.parse { bytes := rs.flatMap CriteoRow.text, behind } =
      .ok { p := .inside [] behind, blk := .ofRows (c.rowsOf behind rs) } := by
  have hrun := run_rows rs hrs behind []
  have hbytes : (rs.flatMap CriteoRow.text).length ≠ 0 := by
    obtain ⟨r, rs, rfl⟩ := List.exists_cons_of_ne_nil hne
    have hpos := List.length_pos_iff.mpr r.text_ne
    rw [List.flatMap_cons, List.length_append]
    omega
  rw [List.append_nil] at hrun
  rw [parse, if_neg hbytes]
  exact whileLoop_eq_ok row_lt hrun rfl (Nat.lt_succ_self _)

end Rows

end CriteoParser

/-! ## Lines of the format -/

/-- A line of the format: a label in the training mode, 13 integer columns and 26 categorical
columns. -/
structure CriteoLine (isTrain : Bool) where
  label : List UInt8
  ints : List (List UInt8)
  cats : List (List UInt8)
  label_ne : isTrain = true → label ≠ []
  length_ints : ints.length = 13
  length_cats : cats.length = 26
  plain : ∀ text ∈ label :: (ints ++ cats), ∀ d ∈ text, d ≠ 9 ∧ isEol d = false
  cats_word : ∀ text ∈ cats, text = [] ∨ text.length = 8 ∧ ∀ d ∈ text, isspace d = false

namespace CriteoLine

variable {isTrain : Bool} (l : CriteoLine isTrain)

/-- The text after the label. -/
def after : List UInt8 := l.ints.flatMap (· ++ [9]) ++ ([9].intercalate l.cats ++ [10])

/-- The text of the line. -/
def text : List UInt8 := (if isTrain then l.label ++ [9] else []) ++ l.after

/-- The row of the line. -/
def row (c : CriteoParser) (l : CriteoLine c.isTrain) : Row where
  label := if c.isTrain then atof l.label else 0
  index := c.codes 0 (l.ints ++ l.cats)
  value := none

/-- The numbers of the columns that are not empty. -/
def numbers : List ℕ :=
  (l.ints ++ l.cats).zipIdx.filterMap fun x => if x.1 = [] then none else some x.2

/-- In the training mode: where a label is blank, the next number in the memory is 0. -/
def Readable (behind : List UInt8) : List (CriteoLine isTrain) → Prop
  | [] => True
  | l :: ls =>
    (isTrain = true → (∀ d ∈ l.label, isspace d = true) →
      atof (l.after ++ (ls.flatMap text ++ behind)) = 0) ∧ Readable behind ls

/-- Categorical columns that end with tabs are turns of the loop. -/
theorem exists_items (texts : List (List UInt8))
    (h : ∀ text ∈ texts, text = [] ∨ text.length = 8 ∧ ∀ d ∈ text, isspace d = false) :
    ∃ items : List Item, items.map Item.column = texts ∧
      items.flatMap Item.text = texts.flatMap (· ++ [9]) := by
  induction texts with
  | nil => exact ⟨[], rfl, rfl⟩
  | cons text texts ih =>
      obtain ⟨items, hcolumn, htext⟩ := ih fun text htext => h text (List.mem_cons_of_mem _ htext)
      rcases h text (by simp) with rfl | ⟨hlen, hspace⟩
      · refine ⟨.blank 9 rfl :: items, ?_, ?_⟩
        · rw [List.map_cons, hcolumn]
          rfl
        · rw [List.flatMap_cons, List.flatMap_cons, htext]
          rfl
      · have hword : isspace (text.headD 0) = false := by
          cases text with
          | nil => cases hlen
          | cons d ds => exact hspace d (by simp)
        refine ⟨.word ⟨text, hlen, hword⟩ 9 rfl rfl :: items, ?_, ?_⟩
        · rw [List.map_cons, hcolumn]
          rfl
        · rw [List.flatMap_cons, List.flatMap_cons, htext]
          rfl

theorem intercalate_concat (texts : List (List UInt8)) (last : List UInt8) :
    [9].intercalate (texts ++ [last]) = texts.flatMap (· ++ [9]) ++ last := by
  induction texts with
  | nil => simp
  | cons text texts ih =>
      rw [List.cons_append, List.intercalate_cons_of_ne_nil (by simp), ih, List.flatMap_cons,
        List.append_assoc (text ++ [9])]

theorem isEol_headD {text : List UInt8} (h : ∀ d ∈ text, isEol d = false) (t : List UInt8) :
    isEol ((text ++ 9 :: t).headD 0) = false := by
  cases text with
  | nil => rfl
  | cons d ds => exact h d (by simp)

/-- What a line begins with. -/
theorem exists_head : ∃ h : CriteoHead isTrain, h.eols = [] ∧ h.label = l.label ∧
    h.ints = l.ints := by
  have hplain := l.plain
  have hfirst : isEol (((if isTrain then l.label ++ [9] else []) ++
      l.ints.flatMap (· ++ [9])).headD 0) = false := by
    by_cases htrain : isTrain = true
    · rw [if_pos htrain, List.append_assoc]
      exact isEol_headD (fun d hd => (hplain l.label (by simp) d hd).2) _
    · have hints := l.length_ints
      cases heq : l.ints with
      | nil => simp [heq] at hints
      | cons text texts =>
          rw [if_neg htrain, List.nil_append, List.flatMap_cons, List.append_assoc]
          exact isEol_headD (fun d hd => (hplain text (by simp [heq]) d hd).2) _
  refine ⟨{ eols := [], label := l.label, ints := l.ints, isEol_of_mem := by simp
            label_ne := l.label_ne, length_ints := l.length_ints, first := hfirst
            label_tab := fun h => (hplain l.label (by simp) 9 h).1 rfl
            ints_tab := fun text htext h => (hplain text (by simp [htext]) 9 h).1 rfl },
    rfl, rfl, rfl⟩

/-- **A line is a row**, as the parser takes it. -/
theorem exists_row : ∃ r : CriteoRow isTrain, r.Complete ∧ r.eols = [] ∧
    r.ints = l.ints ∧ r.cats = l.cats ∧ r.text = l.text := by
  obtain ⟨h, heols, hlabel, hints⟩ := l.exists_head
  obtain ⟨texts, last, hcats⟩ : ∃ texts last, l.cats = texts ++ [last] := by
    rcases List.eq_nil_or_concat' l.cats with hnil | hconcat
    · have hlen := l.length_cats
      rw [hnil] at hlen
      cases hlen
    · exact hconcat
  have hlen : texts.length = 25 := by
    have hlen := l.length_cats
    rw [hcats, List.length_append] at hlen
    exact Nat.succ.inj hlen
  have hword := l.cats_word
  rw [hcats] at hword
  obtain ⟨items, hcolumn, htext⟩ := exists_items texts fun text htext =>
    hword text (List.mem_append_left _ htext)
  have hitems : items.length = 25 := by rw [← hlen, ← hcolumn, List.length_map]
  have hhead : h.text = (if isTrain then l.label ++ [9] else []) ++ l.ints.flatMap (· ++ [9]) := by
    rw [CriteoHead.text, CriteoHead.columns, heols, hlabel, hints, List.nil_append]
  have hline : l.text = h.text ++ (texts.flatMap (· ++ [9]) ++ (last ++ [10])) := by
    rw [hhead, text, after, hcats, intercalate_concat]
    simp only [List.append_assoc]
  rcases hword last (by simp) with rfl | ⟨hlast, hspace⟩
  -- an empty last column: the newline is taken for it
  · refine ⟨{ h with items := items ++ [.blank 10 rfl], stop := none, length_le := ?_ },
      .inl ?_, heols, hints, ?_, ?_⟩
    · simp [hitems]
    · simp [hitems]
    · simp [CriteoRow.cats, hcolumn, hcats, Item.column]
    · simp [CriteoRow.text, CriteoRow.tail, hline, htext, Item.text]
  -- a last column that ends the line
  · have hfirst : isspace (last.headD 0) = false := by
      cases last with
      | nil => cases hlast
      | cons d ds => exact hspace d (by simp)
    refine ⟨{ h with
        items, stop := some (⟨last, hlast, hfirst⟩, ⟨10, rfl⟩), length_le := ?_ },
      .inr rfl, heols, hints, ?_, ?_⟩
    · simp [hitems]
    · simp [CriteoRow.cats, hcolumn, hcats]
    · simp [CriteoRow.text, CriteoRow.tail, hline, htext]

end CriteoLine

namespace CriteoParser

section Lines

variable {c : CriteoParser}

/-- **The column of an index** is found in its highest bits. -/
theorem encode_shiftRight (text : List UInt8) {i : ℕ} (hi : i < 1024) :
    (c.encode text i >>> 54).toNat = i := by
  have hhash : (c.cityHash64 text).toNat >>> 10 >>> 54 = 0 := by
    rw [← Nat.shiftRight_add]
    exact Nat.shiftRight_eq_zero _ _ (UInt64.toNat_lt _)
  have hnum : (i <<< 54 % 2 ^ 64) >>> 54 = i := by
    rw [Nat.shiftLeft_eq, Nat.shiftRight_eq_div_pow]
    omega
  have hlt : i < 2 ^ 64 := by omega
  have hten : UInt64.toNat 10 % 64 = 10 := by decide
  have hcol : UInt64.toNat 54 % 64 = 54 := by decide
  simp only [encode, UInt64.toNat_shiftRight, UInt64.toNat_or, UInt64.toNat_shiftLeft,
    UInt64.toNat_ofNat', hten, hcol]
  rw [Nat.shiftRight_or_distrib, hhash, Nat.zero_or, Nat.mod_eq_of_lt hlt, hnum]

theorem codes_shiftRight (i : ℕ) (texts : List (List UInt8)) (hi : i + texts.length ≤ 1024) :
    (c.codes i texts).map (fun idx : UInt64 => (idx >>> 54).toNat) =
      (texts.zipIdx i).filterMap fun x => if x.1 = [] then none else some x.2 := by
  induction texts generalizing i with
  | nil => rfl
  | cons text texts ih =>
      rw [List.length_cons] at hi
      have hrest := ih (i + 1) (by omega)
      rw [codes, List.map_append, hrest, List.zipIdx_cons, List.filterMap_cons]
      by_cases hne : text = []
      · rw [if_pos hne, if_pos hne]
        rfl
      · rw [if_neg hne, if_neg hne, List.map_singleton, encode_shiftRight text (by omega)]
        rfl

/-- The indices of a line tell the numbers of its columns. -/
theorem numbers_eq (l : CriteoLine c.isTrain) :
    (l.row c).index.map (fun idx : UInt64 => (idx >>> 54).toNat) = l.numbers := by
  refine codes_shiftRight 0 (l.ints ++ l.cats) ?_
  rw [List.length_append, l.length_ints, l.length_cats]
  decide

/-- The label that is delivered for a line is the line's, unless the line's is blank. -/
theorem value_eq_iff (l : CriteoLine c.isTrain) (t : List UInt8) :
    (if c.isTrain then atof (l.text ++ t) else 0) = (l.row c).label ↔
      (c.isTrain = true → (∀ d ∈ l.label, isspace d = true) → atof (l.after ++ t) = 0) := by
  rw [CriteoLine.row]
  by_cases htrain : c.isTrain = true
  · have htext : l.text ++ t = l.label ++ 9 :: (l.after ++ t) := by
      rw [CriteoLine.text, if_pos htrain]
      simp
    have hnil : atof [] = 0 := by decide +kernel
    rw [if_pos htrain, if_pos htrain, htext]
    by_cases hblank : ∀ d ∈ l.label, isspace d = true
    · have htab : atof (9 :: (l.after ++ t)) = atof (l.after ++ t) :=
        atof_blank (s := [9]) (List.forall_mem_singleton.mpr rfl) _
      have hlabel : atof l.label = 0 := by
        rw [← hnil, ← atof_blank hblank [], List.append_nil]
      rw [atof_blank hblank, htab, hlabel]
      exact ⟨fun h _ _ => h, fun h => h htrain hblank⟩
    · have hword : ∃ d ∈ l.label, isspace d = false := by
        simpa using hblank
      rw [atof_append hword rfl]
      exact iff_of_true rfl fun _ h => absurd h hblank
  · rw [if_neg htrain, if_neg htrain]
    exact iff_of_true rfl fun h => absurd h htrain

section Choice

variable {f : CriteoLine c.isTrain → CriteoRow c.isTrain}
  (hf : ∀ l, (f l).Complete ∧ (f l).eols = [] ∧ (f l).ints = l.ints ∧ (f l).cats = l.cats ∧
    (f l).text = l.text)

include hf

theorem flatMap_text (lines : List (CriteoLine c.isTrain)) :
    (lines.map f).flatMap CriteoRow.text = lines.flatMap CriteoLine.text := by
  rw [List.flatMap_map]
  exact List.flatMap_congr fun l _ => (hf l).2.2.2.2

theorem whole_map (lines : List (CriteoLine c.isTrain)) : CriteoRow.Whole [] (lines.map f) := by
  induction lines with
  | nil => trivial
  | cons l lines ih => exact ⟨.inl (hf l).1, ih⟩

/-- What is delivered for a line is its row, if the label is. -/
theorem row_map (l : CriteoLine c.isTrain) (mem : List UInt8) :
    (f l).row c mem = { l.row c with label := if c.isTrain then atof (l.text ++ mem) else 0 } := by
  obtain ⟨-, heols, hints, hcats, htext⟩ := hf l
  have hcolumns : (f l).columns ++ ((f l).tail ++ mem) = l.text ++ mem := by
    rw [← htext, CriteoRow.text, CriteoHead.text, heols, List.nil_append, List.append_assoc]
  rw [CriteoRow.row, CriteoHead.value, hcolumns, hints, hcats]
  rfl

theorem labels_iff (behind : List UInt8) (lines : List (CriteoLine c.isTrain)) :
    (c.rowsOf behind (lines.map f)).map InputRow.label =
      (lines.map (CriteoLine.row c)).map InputRow.label ↔ CriteoLine.Readable behind lines := by
  induction lines with
  | nil => exact iff_of_true rfl trivial
  | cons l lines ih =>
      rw [List.map_cons, rowsOf, row_map hf, flatMap_text hf, List.map_cons, List.map_cons,
        List.map_cons, List.cons.injEq, ih, value_eq_iff]
      exact Iff.rfl

/-- Nothing but the labels may differ. -/
theorem rowsOf_map_eq (behind : List UInt8) (lines : List (CriteoLine c.isTrain))
    (h : (c.rowsOf behind (lines.map f)).map InputRow.label =
      (lines.map (CriteoLine.row c)).map InputRow.label) :
    c.rowsOf behind (lines.map f) = lines.map (CriteoLine.row c) := by
  induction lines with
  | nil => rfl
  | cons l lines ih =>
      rw [List.map_cons, rowsOf, List.map_cons, List.map_cons, List.map_cons,
        List.cons.injEq] at h
      obtain ⟨hlabel, hrest⟩ := h
      rw [row_map hf] at hlabel
      rw [List.map_cons, rowsOf, row_map hf, ih hrest, List.map_cons]
      exact congrArg (fun label => { l.row c with label } :: lines.map (CriteoLine.row c)) hlabel

end Choice

end Lines

/-- What `ParseNext` should do with the lines of a chunk: one row for each of them, whose indices
tell the numbers of their columns. -/
def Correct (c : CriteoParser) (lines : List (CriteoLine c.isTrain)) (behind : List UInt8)
    (data : List Container) : Prop :=
  ∃ blk : Container,
    c.parseNext (some { bytes := lines.flatMap CriteoLine.text, behind }) data =
      .ok (true,
        { c with bytesRead := c.bytesRead +
            UInt64.ofNat (lines.flatMap CriteoLine.text).length },
        [blk]) ∧
    Holds blk (lines.map (CriteoLine.row c)) ∧
    ∀ l ∈ lines, (l.row c).index.map (fun idx : UInt64 => (idx >>> 54).toNat) = l.numbers

/-- **The rows of a well-formed chunk** have the columns of its lines. -/
theorem exists_rows {c : CriteoParser} (line : CriteoLine c.isTrain)
    (lines : List (CriteoLine c.isTrain)) (behind : List UInt8) (data : List Container) :
    ∃ rows : List Row,
      c.parseNext (some { bytes := (line :: lines).flatMap CriteoLine.text, behind }) data =
        .ok (true,
          { c with bytesRead := c.bytesRead +
              UInt64.ofNat ((line :: lines).flatMap CriteoLine.text).length },
          [.ofRows rows]) ∧
      (rows.map InputRow.label = ((line :: lines).map (CriteoLine.row c)).map InputRow.label ↔
        CriteoLine.Readable behind (line :: lines)) ∧
      (CriteoLine.Readable behind (line :: lines) →
        rows = (line :: lines).map (CriteoLine.row c)) := by
  choose f hf using fun l : CriteoLine c.isTrain => l.exists_row
  have hparse := parse_rows ((line :: lines).map f) (whole_map hf _) (by simp) behind
  have hlabels := labels_iff hf behind (line :: lines)
  rw [flatMap_text hf] at hparse
  refine ⟨_, ?_, hlabels, fun h => rowsOf_map_eq hf _ _ (hlabels.mpr h)⟩
  rw [parseNext, hparse]
  rfl

/-- **Every line of a well-formed chunk is a row**, if the label of no line is blank, or the number
that `atof` finds behind it is 0. -/
theorem parseNext_lines_iff (c : CriteoParser) (line : CriteoLine c.isTrain)
    (lines : List (CriteoLine c.isTrain)) (behind : List UInt8) (data : List Container) :
    Correct c (line :: lines) behind data ↔ CriteoLine.Readable behind (line :: lines) := by
  obtain ⟨rows, hparse, hlabels, hrows⟩ := exists_rows line lines behind data
  constructor
  · rintro ⟨blk, hblk, hholds, -⟩
    rw [hparse] at hblk
    cases hblk
    exact hlabels.mp hholds.label
  · intro h
    rw [hrows h] at hparse
    exact ⟨_, hparse, holds_ofRows _, fun l _ => numbers_eq l⟩

/-- A line whose label is one blank. The first integer column is `7`, the others are empty. -/
def blankLine : CriteoLine true where
  label := [32]
  ints := [55] :: List.replicate 12 []
  cats := List.replicate 26 []
  label_ne := by decide
  length_ints := rfl
  length_cats := rfl
  plain := by simp [isEol]
  cats_word := by simp

/-- Its row gets the label 7. -/
theorem not_correct_blankLine :
    ¬Correct { isTrain := true, cityHash64 := fun _ => 0, bytesRead := 0 } [blankLine] [] [] := by
  obtain ⟨rows, hparse, hlabels, -⟩ := exists_rows
    (c := { isTrain := true, cityHash64 := fun _ => 0, bytesRead := 0 }) blankLine [] [] []
  rintro ⟨blk, hblk, hholds, -⟩
  rw [hparse] at hblk
  cases hblk
  have hseven : atof (blankLine.after ++ ([] ++ [])) ≠ 0 := by decide +kernel
  exact hseven ((hlabels.mp hholds.label).1 rfl (List.forall_mem_singleton.mpr rfl))

end CriteoParser

end Difacto.Io
