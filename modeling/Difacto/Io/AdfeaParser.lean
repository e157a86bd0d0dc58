import Difacto.Io.TextParser
import Difacto.Lib.Loop

/-!
# The adfea parser

`AdfeaParser::ParseNext` of `base/adfea_parser.h` for 64-bit indices. A line of the format has a
line id, a count and a label, and then features `idx:gid`. The parser does not look for lines: it
counts the tokens without a colon, and every third one begins a row.

## Main definitions

* `AdfeaParser.token` — the body of the loop, which takes one token.
* `AdfeaParser.parse`, `AdfeaParser.parseNext` — one chunk.
* `AdfeaLine` — a line of the format and its row.

## Main results

* `AdfeaParser.parse_ne_runaway` — the loop ends on any chunk.
* `AdfeaParser.parse_lines` — the rows of a chunk are its lines.
-/

namespace Difacto.Io

open Base Lib Relation

namespace AdfeaParser

/-- The variables of the loop. -/
structure State where
  p : Ptr
  i : ℕ
  blk : Container

/-- `if (blk.label.size() != 0) blk.offset.push_back(blk.index.size());` -/
def closeRow (blk : Container) : Container :=
  if blk.label.length ≠ 0 then { blk with offset := blk.offset ++ [blk.index.length] } else blk

/-- `(idx >> 10) | (gid << 54)` -/
def encode (idx gid : UInt64) : UInt64 := idx >>> 10 ||| gid <<< 54

/-- A token with a colon. -/
def feature (s : State) (head p : Ptr) : Except ParseFault State := do
  let p := p.add 1
  let idx ← strtoull head.mem 10
  let gid ← strtoull p.mem 10
  let index := s.blk.index ++ [encode idx gid]
  return { s with p := p.skipInside isdigit, blk := { s.blk with index } }

/-- A token without one: skip the lineid and the first count. -/
def count (s : State) (head p : Ptr) : State :=
  if s.i = 2 then
    let blk := closeRow s.blk
    let label := blk.label ++ [if head.get = 49 then 1 else 0]
    { p, i := 0, blk := { blk with label } }
  else { s with p, i := s.i + 1 }

/-- `while (p != end)`: the body. -/
def token (s : State) : Except ParseFault State := do
  let head := s.p
  let p := head.skipInside isdigit
  if p.left = head.left then throw (.check "")
  let s ← if p.get = 58 then feature s head p else pure (count s head p)
  return { s with p := s.p.skipInside isspace }

/-- `p == end` -/
def atEnd (s : State) : Bool := s.p.left = 0

/-- `ParseNext` after the chunk is there. -/
def parse (p : Ptr) : Except ParseFault (Container) := do
  let p := p.skipInside isspace
  let s ← whileLoop atEnd token .runaway (p.mem.length + 1) { p, i := 0, blk := .clear }
  return closeRow s.blk

end AdfeaParser

/-- `AdfeaParser` -/
structure AdfeaParser where
  bytesRead : UInt64

/-- `ParseNext`: its result, the parser and `data`. The argument `chunk` is what
`source_->NextChunk` delivers. -/
def AdfeaParser.parseNext (s : AdfeaParser) (chunk : Option Blob)
    (data : List (Container)) :
    Except ParseFault (Bool × AdfeaParser × List (Container)) :=
  match chunk with
  | none => .ok (false, s, data)
  | some chunk => do
    if chunk.bytes.length = 0 then throw (.check "")
    let bytesRead := s.bytesRead + UInt64.ofNat chunk.bytes.length
    let blk ← parse chunk.dptr
    return (true, { bytesRead }, [blk])

/-! ## The loop ends -/

namespace AdfeaParser

/-- `feature` moves the pointer forward. -/
theorem length_feature {s s' : State} {head p : Ptr} (h : feature s head p = .ok s') :
    s'.p.mem.length ≤ p.mem.length := by
  simp only [feature, bind, Except.bind] at h
  split at h
  · cases h
  · split at h
    · cases h
    · cases h
      refine Ptr.length_mem_skipInside_le.trans ?_
      rw [Ptr.length_mem_add]
      exact Nat.sub_le ..

theorem length_count (s : State) (head p : Ptr) : (count s head p).p = p := by
  rw [count]
  split <;> rfl

theorem token_lt (s s' : State) (h : Turn atEnd token s s') :
    s'.p.mem.length < s.p.mem.length := by
  have htoken := h.2
  simp only [token] at htoken
  split at htoken
  · cases htoken
  · rename_i hne
    have hlt := Ptr.length_mem_skipInside_lt hne
    refine Nat.lt_of_le_of_lt ?_ hlt
    split at htoken
    · cases hfeature : feature s s.p (s.p.skipInside isdigit) with
      | error e =>
          rw [hfeature] at htoken
          cases htoken
      | ok s₁ =>
          rw [hfeature] at htoken
          cases htoken
          exact Ptr.length_mem_skipInside_le.trans (length_feature hfeature)
    · cases htoken
      refine Ptr.length_mem_skipInside_le.trans ?_
      rw [length_count]

theorem strtoull_ne_runaway (s : List UInt8) (base : UInt64) :
    strtoull s base ≠ .error .runaway := by
  simp only [strtoull, strtouint]
  split <;> exact fun h => by cases h

theorem token_ne_runaway (s : State) : token s ≠ .error .runaway := by
  have hfeature (head p : Ptr) : feature s head p ≠ .error .runaway :=
    bind_ne_error (strtoull_ne_runaway _ _) fun _ =>
      bind_ne_error (strtoull_ne_runaway _ _) fun _ h => by cases h
  simp only [token]
  split
  · exact fun h => by cases h
  · split
    · exact bind_ne_error (hfeature _ _) fun _ h => by cases h
    · exact fun h => by cases h

/-- **The loop ends on any chunk**, whatever is behind it. -/
theorem parse_ne_runaway (p : Ptr) : parse p ≠ .error .runaway := by
  rw [parse]
  exact bind_ne_error (whileLoop_ne_late token_lt token_ne_runaway (Nat.lt_succ_self _))
    fun _ h => by cases h

end AdfeaParser

/-! ## Lines -/

/-- Decimal digits. -/
abbrev Digits := { ds : List UInt8 // ds ≠ [] ∧ ∀ c ∈ ds, isdigit c = true }

/-- White space, of any kind. -/
abbrev Blanks := { ws : List UInt8 // ∀ c ∈ ws, isspace c = true }

/-- White space between two tokens. -/
abbrev Gap := { ws : List UInt8 // ws ≠ [] ∧ ∀ c ∈ ws, isspace c = true }

/-- A token `idx:gid`, and the white space before it. -/
structure AdfeaFeature where
  gap : Gap
  idx : Digits
  gid : Digits
  idx_lt : decimal idx.1 < 2 ^ 64
  gid_lt : decimal gid.1 < 2 ^ 64

/-- Its text. -/
def AdfeaFeature.text (f : AdfeaFeature) : List UInt8 := f.gap.1 ++ (f.idx.1 ++ 58 :: f.gid.1)

/-- The number that stands for it. -/
def AdfeaFeature.code (f : AdfeaFeature) : UInt64 :=
  UInt64.ofNat (decimal f.idx.1 >>> 10 ||| decimal f.gid.1 <<< 54)

/-- A line of the format. -/
structure AdfeaLine where
  indent : Blanks
  lineId : Digits
  gap : Gap
  count : Digits
  gap' : Gap
  label : Digits
  features : List AdfeaFeature
  trail : Blanks

namespace AdfeaLine

/-- The text of a line, up to its newline. -/
def text (l : AdfeaLine) : List UInt8 :=
  l.indent.1 ++ (l.lineId.1 ++ (l.gap.1 ++ (l.count.1 ++ (l.gap'.1 ++ (l.label.1 ++
    (l.features.flatMap AdfeaFeature.text ++ (l.trail.1 ++ [10])))))))

/-- The row of a line. -/
def row (l : AdfeaLine) : Row where
  label := if l.label.1.head? = some 49 then 1 else 0
  index := l.features.map AdfeaFeature.code
  value := none

end AdfeaLine

namespace AdfeaParser

/-! ### Tokens -/

theorem encode_eq {idx gid : ℕ} (hidx : idx < 2 ^ 64) :
    encode (UInt64.ofNat idx) (UInt64.ofNat gid) = UInt64.ofNat (idx >>> 10 ||| gid <<< 54) := by
  have hidx' : idx >>> 10 < 2 ^ 64 := (Nat.shiftRight_le idx 10).trans_lt hidx
  have hten : UInt64.toNat 10 % 64 = 10 := by decide
  have hgid : UInt64.toNat 54 % 64 = 54 := by decide
  apply UInt64.toNat_inj.mp
  simp only [encode, UInt64.toNat_or, UInt64.toNat_shiftRight, UInt64.toNat_shiftLeft,
    UInt64.toNat_ofNat', hten, hgid]
  rw [Nat.mod_eq_of_lt hidx, Nat.or_mod_two_pow, Nat.mod_eq_of_lt hidx', Nat.shiftLeft_eq,
    Nat.shiftLeft_eq, Nat.mod_mul_mod]

section Tokens

variable {ds t behind : List UInt8} {i : ℕ} {blk : Container}

/-- The digits of a token end at its white space or its colon. -/
theorem dropWhile_digits (hds : ∀ c ∈ ds, isdigit c = true) (ht : isdigit (t.headD 0) = false) :
    (ds ++ t).dropWhile isdigit = t := by
  rw [List.dropWhile_append_of_pos hds]
  cases t with
  | nil => rfl
  | cons c t => exact List.dropWhile_cons_of_neg (by simpa using ht)

/-- White space ends at the digits of the next token. -/
theorem dropWhile_blanks {ws : List UInt8} (hws : ∀ c ∈ ws, isspace c = true) (hne : ds ≠ [])
    (hds : ∀ c ∈ ds, isdigit c = true) : (ws ++ (ds ++ t)).dropWhile isspace = ds ++ t := by
  obtain ⟨c, cs, rfl⟩ := List.exists_cons_of_ne_nil hne
  rw [List.dropWhile_append_of_pos hws]
  exact List.dropWhile_cons_of_neg (by simp [isspace_of_isdigit (hds c (by simp))])

theorem left_ne_of_ne_nil (hne : ds ≠ []) :
    (Ptr.inside t behind).left ≠ (Ptr.inside (ds ++ t) behind).left := by
  have hpos := List.length_pos_iff.mpr hne
  rw [Ptr.left_inside, Ptr.left_inside, List.length_append]
  omega

theorem atEnd_eq_false (hne : ds ≠ []) :
    atEnd { p := .inside (ds ++ t) behind, i, blk } = false := by
  have hpos := List.length_pos_iff.mpr hne
  rw [atEnd, decide_eq_false_iff_not, Ptr.left_inside, List.length_append]
  omega

/-- A byte of white space is neither a digit nor a colon. -/
theorem space_head (behind : List UInt8) (ht : isspace (t.headD 0) = true) : t ≠ [] ∧
    isdigit (t.headD 0) = false ∧ (Ptr.inside t behind).get ≠ 58 := by
  have hne : t ≠ [] := by
    rintro rfl
    exact absurd ht (by decide)
  refine ⟨hne, ?_, ?_⟩
  · cases hdigit : isdigit (t.headD 0) with
    | false => rfl
    | true => exact absurd ((isspace_of_isdigit hdigit).symm.trans ht) Bool.false_ne_true
  · rw [Ptr.get_inside_of_ne_nil hne]
    intro hcolon
    rw [hcolon] at ht
    exact absurd ht (by decide)

/-- A token that is a number. -/
theorem turn_count (ds : Digits) (behind : List UInt8) (i : ℕ) (blk : Container)
    (ht : isspace (t.headD 0) = true) :
    Turn atEnd token { p := .inside (ds.1 ++ t) behind, i, blk }
      { count { p := .inside (ds.1 ++ t) behind, i, blk } (.inside (ds.1 ++ t) behind)
          (.inside t behind) with p := .inside (t.dropWhile isspace) behind } := by
  obtain ⟨-, hdigit, hcolon⟩ := space_head behind ht
  have hskip : (Ptr.inside (ds.1 ++ t) behind).skipInside isdigit = .inside t behind := by
    rw [Ptr.skipInside_inside, dropWhile_digits ds.2.2 hdigit]
  refine ⟨atEnd_eq_false ds.2.1, ?_⟩
  simp only [token, hskip, if_neg (left_ne_of_ne_nil ds.2.1), if_neg hcolon]
  have hspace : (count { p := .inside (ds.1 ++ t) behind, i, blk } (.inside (ds.1 ++ t) behind)
      (.inside t behind)).p.skipInside isspace = .inside (t.dropWhile isspace) behind := by
    rw [length_count, Ptr.skipInside_inside]
  exact congrArg (fun p => Except.ok { count _ _ _ with p }) hspace

/-- A token `idx:gid`. -/
theorem turn_feature (f : AdfeaFeature) (behind : List UInt8) (i : ℕ) (blk : Container)
    (ht : isspace (t.headD 0) = true) :
    Turn atEnd token { p := .inside (f.idx.1 ++ 58 :: (f.gid.1 ++ t)) behind, i, blk }
      { p := .inside (t.dropWhile isspace) behind, i
        blk := { blk with index := blk.index ++ [f.code] } } := by
  obtain ⟨hne, hdigit, -⟩ := space_head behind ht
  have hskip : (Ptr.inside (f.idx.1 ++ 58 :: (f.gid.1 ++ t)) behind).skipInside isdigit =
      .inside (58 :: (f.gid.1 ++ t)) behind := by
    rw [Ptr.skipInside_inside, dropWhile_digits f.idx.2.2 rfl]
  have hidx : strtoull (f.idx.1 ++ 58 :: (f.gid.1 ++ t) ++ behind) 10 =
      .ok (UInt64.ofNat (decimal f.idx.1)) := by
    rw [List.append_assoc]
    exact strtoull_append f.idx.2.1 f.idx.2.2 rfl
  have hgid : strtoull (f.gid.1 ++ t ++ behind) 10 = .ok (UInt64.ofNat (decimal f.gid.1)) := by
    have hhead : (t ++ behind).headD 0 = t.headD 0 := Ptr.get_inside_of_ne_nil hne
    rw [List.append_assoc]
    exact strtoull_append f.gid.2.1 f.gid.2.2 (by rw [hhead, hdigit])
  have hgid' : (Ptr.inside (f.gid.1 ++ t) behind).skipInside isdigit = .inside t behind := by
    rw [Ptr.skipInside_inside, dropWhile_digits f.gid.2.2 hdigit]
  have hcode : encode (UInt64.ofNat (decimal f.idx.1)) (UInt64.ofNat (decimal f.gid.1)) = f.code :=
    encode_eq f.idx_lt
  have hfeature : feature { p := .inside (f.idx.1 ++ 58 :: (f.gid.1 ++ t)) behind, i, blk }
      (.inside (f.idx.1 ++ 58 :: (f.gid.1 ++ t)) behind)
      (.inside (58 :: (f.gid.1 ++ t)) behind) =
        .ok { p := .inside t behind, i
              blk := { blk with index := blk.index ++ [f.code] } } := by
    simp only [feature, Ptr.add_one_inside, Ptr.mem_inside, hidx, hgid]
    simp only [bind, Except.bind, hcode, hgid', pure, Except.pure]
  refine ⟨atEnd_eq_false f.idx.2.1, ?_⟩
  simp only [token, hskip, if_neg (left_ne_of_ne_nil f.idx.2.1), Ptr.get_inside, if_true, hfeature]
  simp only [bind, Except.bind, Ptr.skipInside_inside, pure, Except.pure]

end Tokens

/-! ### Rows -/

/-- Some rows, the last of which is open. -/
def opened (rows : List Row) (r : Row) : Container :=
  { RowBlockContainer.ofRows (rows ++ [r]) with offset := 0 :: RowBlockContainer.ends 0 rows }

theorem closeRow_opened (rows : List Row) (r : Row) :
    closeRow (opened rows r) = .ofRows (rows ++ [r]) := by
  have hne : (opened rows r).label.length ≠ 0 := by
    simp [opened, RowBlockContainer.ofRows]
  have hback : ((rows ++ [r]).flatMap InputRow.index).length =
      (rows.flatMap InputRow.index).length + r.index.length := by
    simp
  rw [closeRow, if_pos hne]
  simp only [opened, RowBlockContainer.ofRows, RowBlockContainer.ends_append, hback,
    RowBlockContainer.ends, Nat.zero_add, List.cons_append]

/-- A label opens a row. -/
theorem push_label {blk : Container} {rows : List Row} (h : closeRow blk = .ofRows rows)
    (l : Binary32) : { closeRow blk with label := (closeRow blk).label ++ [l] } =
      opened rows { label := l, index := [], value := none } := by
  rw [h]
  simp [opened, RowBlockContainer.ofRows]

/-- A feature goes to the open row. -/
theorem push_index (rows : List Row) (r : Row) (idx : UInt64) :
    { opened rows r with index := (opened rows r).index ++ [idx] } =
      opened rows { r with index := r.index ++ [idx] } := by
  simp [opened, RowBlockContainer.ofRows]

/-- White space before a token. -/
theorem isspace_headD (ws : Gap) (t : List UInt8) : isspace ((ws.1 ++ t).headD 0) = true := by
  obtain ⟨c, cs, heq⟩ := List.exists_cons_of_ne_nil ws.2.1
  have hc : c ∈ ws.1 := heq ▸ List.mem_cons_self
  rw [heq]
  exact ws.2.2 c hc

theorem dropWhile_digits_of_gap (ws : Gap) (ds : Digits) (t : List UInt8) :
    (ws.1 ++ (ds.1 ++ t)).dropWhile isspace = ds.1 ++ t :=
  dropWhile_blanks ws.2.2 ds.2.1 ds.2.2

/-- The line id and the count are skipped. -/
theorem turn_skip {t : List UInt8} (ds : Digits) (ws : Gap) (ds' : Digits) (behind : List UInt8)
    (i : ℕ) (blk : Container) (hi : i ≠ 2) :
    Turn atEnd token { p := .inside (ds.1 ++ (ws.1 ++ (ds'.1 ++ t))) behind, i, blk }
      { p := .inside (ds'.1 ++ t) behind, i := i + 1, blk } := by
  have hturn := turn_count ds behind i blk (isspace_headD ws (ds'.1 ++ t))
  rw [dropWhile_digits_of_gap] at hturn
  simp only [count, if_neg hi] at hturn
  exact hturn

/-- The label closes a row and opens one. -/
theorem turn_label {t : List UInt8} (ds : Digits) (behind : List UInt8) {rows : List Row}
    {blk : Container} (hblk : closeRow blk = .ofRows rows) (ht : isspace (t.headD 0) = true) :
    Turn atEnd token { p := .inside (ds.1 ++ t) behind, i := 2, blk }
      { p := .inside (t.dropWhile isspace) behind, i := 0
        blk := opened rows
          { label := if ds.1.head? = some 49 then 1 else 0, index := [], value := none } } := by
  have hturn := turn_count ds behind 2 blk ht
  have hget : (Ptr.inside (ds.1 ++ t) behind).get = 49 ↔ ds.1.head? = some 49 := by
    obtain ⟨c, cs, heq⟩ := List.exists_cons_of_ne_nil ds.2.1
    rw [heq]
    exact Option.some_inj.symm
  simp only [count, if_true, hget, push_label hblk] at hturn
  exact hturn

theorem isspace_headD_newline (ws : Blanks) (t : List UInt8) :
    isspace ((ws.1 ++ 10 :: t).headD 0) = true := by
  obtain ⟨ws, hws⟩ := ws
  cases ws with
  | nil => rfl
  | cons c ws => exact hws c (by simp)

theorem isspace_headD_features {t : List UInt8} (fs : List AdfeaFeature)
    (ht : isspace (t.headD 0) = true) :
    isspace ((fs.flatMap AdfeaFeature.text ++ t).headD 0) = true := by
  cases fs with
  | nil => exact ht
  | cons f fs =>
      rw [List.flatMap_cons, AdfeaFeature.text, List.append_assoc, List.append_assoc]
      exact isspace_headD f.gap _

section Runs

variable {t : List UInt8} (behind : List UInt8)

theorem run_features (fs : List AdfeaFeature) (rows : List Row) (r : Row)
    (ht : isspace (t.headD 0) = true) :
    ReflTransGen (Turn atEnd token)
      { p := .inside ((fs.flatMap AdfeaFeature.text ++ t).dropWhile isspace) behind, i := 0
        blk := opened rows r }
      { p := .inside (t.dropWhile isspace) behind, i := 0
        blk := opened rows { r with index := r.index ++ fs.map AdfeaFeature.code } } := by
  induction fs generalizing r with
  | nil =>
      rw [List.map_nil, List.append_nil]
      exact .refl
  | cons f fs ih =>
      have hspace := isspace_headD_features fs ht
      have htext : ((f :: fs).flatMap AdfeaFeature.text ++ t).dropWhile isspace =
          f.idx.1 ++ 58 :: (f.gid.1 ++ (fs.flatMap AdfeaFeature.text ++ t)) := by
        rw [List.flatMap_cons, AdfeaFeature.text]
        simp only [List.append_assoc, List.cons_append]
        exact dropWhile_digits_of_gap f.gap f.idx _
      have hturn := turn_feature f behind 0 (opened rows r) hspace
      have hrest := ih { r with index := r.index ++ [f.code] }
      rw [push_index] at hturn
      rw [List.append_assoc] at hrest
      rw [htext]
      exact .head hturn hrest

/-- **The tokens of a line** are its row. The row before it is closed by the label. -/
theorem run_line (l : AdfeaLine) (rows : List Row) {blk : Container}
    (hblk : closeRow blk = .ofRows rows) :
    ∃ blk', closeRow blk' = .ofRows (rows ++ [l.row]) ∧
      ReflTransGen (Turn atEnd token)
        { p := .inside ((l.text ++ t).dropWhile isspace) behind, i := 0, blk }
        { p := .inside (t.dropWhile isspace) behind, i := 0, blk := blk' } := by
  have htrail : (l.trail.1 ++ 10 :: t).dropWhile isspace = t.dropWhile isspace := by
    rw [List.dropWhile_append_of_pos l.trail.2]
    rfl
  have hend : isspace ((l.trail.1 ++ 10 :: t).headD 0) = true := isspace_headD_newline l.trail t
  have hspace := isspace_headD_features l.features hend
  have htext : (l.text ++ t).dropWhile isspace = l.lineId.1 ++ (l.gap.1 ++ (l.count.1 ++
      (l.gap'.1 ++ (l.label.1 ++ (l.features.flatMap AdfeaFeature.text ++
        (l.trail.1 ++ 10 :: t)))))) := by
    rw [AdfeaLine.text]
    simp only [List.append_assoc, List.singleton_append]
    exact dropWhile_blanks l.indent.2 l.lineId.2.1 l.lineId.2.2
  have hfeatures := run_features behind l.features rows
    { label := if l.label.1.head? = some 49 then 1 else 0, index := [], value := none } hend
  rw [htrail] at hfeatures
  refine ⟨_, closeRow_opened rows l.row, ?_⟩
  rw [htext]
  refine .head (turn_skip l.lineId l.gap l.count behind 0 blk (by decide)) ?_
  refine .head (turn_skip l.count l.gap' l.label behind 1 blk (by decide)) ?_
  exact .head (turn_label l.label behind hblk hspace) hfeatures

theorem run_lines (lines : List AdfeaLine) (rows : List Row) {blk : Container}
    (hblk : closeRow blk = .ofRows rows) :
    ∃ blk', closeRow blk' = .ofRows (rows ++ lines.map AdfeaLine.row) ∧
      ReflTransGen (Turn atEnd token)
        { p := .inside ((lines.flatMap AdfeaLine.text).dropWhile isspace) behind, i := 0, blk }
        { p := .inside [] behind, i := 0, blk := blk' } := by
  induction lines generalizing rows blk with
  | nil => exact ⟨blk, by rw [List.map_nil, List.append_nil, hblk], .refl⟩
  | cons l lines ih =>
      obtain ⟨blk₁, hblk₁, hline⟩ := run_line (t := lines.flatMap AdfeaLine.text) behind l rows hblk
      obtain ⟨blk₂, hblk₂, hlines⟩ := ih (rows ++ [l.row]) hblk₁
      refine ⟨blk₂, ?_, ?_⟩
      · rw [hblk₂, List.append_assoc, List.map_cons]
        rfl
      · rw [List.flatMap_cons]
        exact hline.trans hlines

end Runs

/-- **What a well-formed chunk parses to**, whatever is behind it. -/
theorem parse_eq (lines : List AdfeaLine) (behind : List UInt8) :
    parse (.inside (lines.flatMap AdfeaLine.text) behind) =
      .ok (.ofRows (lines.map AdfeaLine.row)) := by
  have hclear : closeRow .clear = .ofRows [] := rfl
  obtain ⟨blk, hblk, hrun⟩ := run_lines behind lines [] hclear
  simp only [parse, Ptr.skipInside_inside]
  rw [whileLoop_eq_ok token_lt hrun rfl (Nat.lt_succ_self _)]
  simp only [bind, Except.bind, pure, Except.pure, hblk, List.nil_append]

end AdfeaParser

/-- **The parser delivers the lines of a chunk** as its rows. -/
theorem AdfeaParser.parseNext_lines (s : AdfeaParser) (line : AdfeaLine) (lines : List AdfeaLine)
    (behind : List UInt8) (data : List Container) : ∃ blk : Container,
    s.parseNext (some { bytes := (line :: lines).flatMap AdfeaLine.text, behind }) data =
      .ok (true,
        { bytesRead := s.bytesRead +
            UInt64.ofNat ((line :: lines).flatMap AdfeaLine.text).length },
        [blk]) ∧
      Holds blk ((line :: lines).map AdfeaLine.row) := by
  refine ⟨.ofRows ((line :: lines).map AdfeaLine.row), ?_, holds_ofRows _⟩
  have hne : ((line :: lines).flatMap AdfeaLine.text).length ≠ 0 := by
    simp [AdfeaLine.text]
  simp only [parseNext, if_neg hne, Blob.dptr, AdfeaParser.parse_eq]
  rfl

end Difacto.Io
