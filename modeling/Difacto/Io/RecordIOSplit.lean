import Difacto.Io.RecordIO
import Difacto.Io.RecordSplit

/-!
# Splitting files of records

`RecordIOSplitter` of `dmlc-core/src/io/recordio_split.cc`, and how it and `RecordIOChunkReader` of
`dmlc-core/src/recordio.cc` find a record at an aligned place in the middle of a file, by the words
there: `kMagic`, and after it a word whose flag says that the piece is the first one of a record.

The bytes are looked at in words; `Init` checks that a file has whole words.

## Main definitions

* `recordIOSplitter` — `SeekRecordBegin` and `FindLastRecordBegin`.
* `findNextHead` — `FindNextRecordIOHead`.
* `Later` — words among which no record begins.
* `begun` — how many records begin before a word.

## Main results

* `split_spec` — the words of a file from any word on.
* `RecordIOSplitter.cut_eq`, `RecordIOSplitter.chunks_eq` — parts and chunks are whole records.
-/

namespace Difacto.Io

open Lib (leBytes ofLeBytes length_leBytes ofLeBytes_leBytes)
open RecordIOWriter

/-! ## Words -/

/-- The words of these bytes. -/
def words : List UInt8 → List ℕ
  | a :: b :: c :: d :: bs => ofLeBytes [a, b, c, d] :: words bs
  | _ => []

theorem words_of_short {bs : List UInt8} (h : bs.length < 4) : words bs = [] := by
  match bs, h with
  | [], _ | [_], _ | [_, _], _ | [_, _, _], _ => rfl
  | a :: b :: c :: d :: bs, h =>
    simp only [List.length_cons] at h
    omega

theorem short_of_ne {bs : List UInt8}
    (h : ∀ (a b c d : UInt8) (bs' : List UInt8), bs = a :: b :: c :: d :: bs' → False) :
    bs.length < 4 := by
  match bs, h with
  | [], _ | [_], _ | [_, _], _ | [_, _, _], _ => simp
  | a :: b :: c :: d :: bs, h => exact (h a b c d bs rfl).elim

theorem length_words (bs : List UInt8) : (words bs).length = bs.length / 4 := by
  induction bs using words.induct with
  | case1 a b c d bs ih =>
    simp only [words, List.length_cons, ih]
    omega
  | case2 bs h =>
    have hshort := short_of_ne h
    rw [words_of_short hshort, List.length_nil]
    omega

theorem words_append {as : List UInt8} (has : as.length % 4 = 0) (bs : List UInt8) :
    words (as ++ bs) = words as ++ words bs := by
  induction as using words.induct with
  | case1 a b c d as ih =>
    simp only [List.cons_append, words]
    rw [ih (by simp only [List.length_cons] at has; omega)]
  | case2 as h =>
    have hshort := short_of_ne h
    obtain rfl : as = [] := List.length_eq_zero_iff.mp (by omega)
    rfl

theorem words_drop (bs : List UInt8) (j : ℕ) : words (bs.drop (4 * j)) = (words bs).drop j := by
  induction j generalizing bs with
  | zero => rfl
  | succ j ih =>
    match bs with
    | [] => simp [words]
    | [_] => simp [words, Nat.mul_succ]
    | [_, _] => simp [words, Nat.mul_succ]
    | [_, _, _] => simp [words, Nat.mul_succ]
    | a :: b :: c :: d :: bs =>
      rw [show 4 * (j + 1) = 4 * j + 4 by ring]
      simp only [words, List.drop_succ_cons]
      exact ih bs

/-- Only the bytes of `kMagic` are the word `kMagic`. -/
theorem eq_magic {a b c d : UInt8} (h : ofLeBytes [a, b, c, d] = kMagic) :
    [a, b, c, d] = magic := by
  simp only [ofLeBytes, kMagic] at h
  have ha := a.toNat_lt
  have hb := b.toNat_lt
  have hc := c.toNat_lt
  have hd := d.toNat_lt
  have h1 : a = 0x0a := UInt8.toNat_inj.mp (by simp; omega)
  have h2 : b = 0x23 := UInt8.toNat_inj.mp (by simp; omega)
  have h3 : c = 0xd7 := UInt8.toNat_inj.mp (by simp; omega)
  have h4 : d = 0xce := UInt8.toNat_inj.mp (by simp; omega)
  rw [h1, h2, h3, h4]
  rfl

/-! ## Looking for records -/

/-- `cflag == 0 || cflag == 1` -/
def isFirst (lrec : ℕ) : Bool := decodeFlag lrec == 0 || decodeFlag lrec == 1

namespace RecordIOSplitter

/-- The loop of `SeekRecordBegin`, in words. -/
def seekWords : List ℕ → Option ℕ
  | [] => some 0
  | v :: ws =>
    if v = kMagic then
      match ws with
      | [] => none
      | lrec :: ws => if isFirst lrec then some 0 else (seekWords ws).map (· + 2)
    else (seekWords ws).map (· + 1)

/-- `SeekRecordBegin`, over the bytes that the stream still has. -/
def seekRecordBegin (bs : List UInt8) : Option ℕ := (seekWords (words bs)).map fun n => 4 * n

/-- The loop of `FindLastRecordBegin`, from word `p` down to the second one. -/
def scanBack (ws : List ℕ) : ℕ → ℕ
  | 0 => 0
  | p + 1 =>
    if ws.getD (p + 1) 0 = kMagic ∧ isFirst (ws.getD (p + 2) 0) = true then p + 1
    else scanBack ws p

/-- `FindLastRecordBegin`: how far the result is from `begin`. -/
def findLastRecordBegin (buf : List UInt8) : Option ℕ :=
  if buf.length % 4 ≠ 0 then none
  else if (words buf).length < 2 then none
  else some (4 * scanBack (words buf) ((words buf).length - 2))

end RecordIOSplitter

/-- `RecordIOSplitter` -/
def recordIOSplitter : RecordSplit where
  seekRecordBegin := RecordIOSplitter.seekRecordBegin
  findLastRecordBegin := RecordIOSplitter.findLastRecordBegin
  alignBytes := 4

/-- The loop of `FindNextRecordIOHead`, in words: how far the result is from `begin`. -/
def findNextHead : List ℕ → ℕ
  | w :: lrec :: ws =>
    if w = kMagic ∧ isFirst lrec = true then 0 else findNextHead (lrec :: ws) + 1
  | [_] => 1
  | [] => 0

/-! ## The words of a record -/

/-- Words among which no record begins: every `kMagic` begins a piece that is not the first one. -/
inductive Later : List ℕ → Prop
  | nil : Later []
  | plain {w : ℕ} {ws : List ℕ} : w ≠ kMagic → Later ws → Later (w :: ws)
  | piece {lrec : ℕ} {ws : List ℕ} : lrec ≠ kMagic → isFirst lrec = false → Later ws →
      Later (kMagic :: lrec :: ws)

theorem Later.append {xs ys : List ℕ} (hx : Later xs) (hy : Later ys) : Later (xs ++ ys) := by
  induction hx with
  | nil => exact hy
  | plain hne _ ih => exact .plain hne ih
  | piece hne hflag _ ih => exact .piece hne hflag ih

theorem Later.of_forall {ws : List ℕ} (h : ∀ w ∈ ws, w ≠ kMagic) : Later ws := by
  induction ws with
  | nil => exact .nil
  | cons w ws ih =>
    exact .plain (h w List.mem_cons_self) (ih fun x hx => h x (List.mem_cons_of_mem _ hx))

theorem Later.drop {ws : List ℕ} (h : Later ws) (j : ℕ) : Later (ws.drop j) := by
  induction h generalizing j with
  | nil =>
    rw [List.drop_nil]
    exact .nil
  | plain hne hws ih =>
    cases j with
    | zero => exact .plain hne hws
    | succ j => exact ih j
  | piece hne hflag hws ih =>
    match j with
    | 0 => exact .piece hne hflag hws
    | 1 => exact .plain hne hws
    | j + 2 => exact ih j

/-- The words of a record: the first piece, and what comes after its header. -/
structure IsRecord (ws : List ℕ) : Prop where
  exists_eq : ∃ lrec rest, ws = kMagic :: lrec :: rest ∧ lrec ≠ kMagic ∧ isFirst lrec = true ∧
    Later rest

/-- A word that is `kMagic` has its bytes. -/
theorem take_of_words {bs : List UInt8} {ws : List ℕ} (h : words bs = kMagic :: ws) :
    bs.take 4 = magic := by
  match bs, h with
  | a :: b :: c :: d :: bs, h =>
    rw [words, List.cons.injEq] at h
    exact eq_magic h.1
  | [], h | [_], h | [_, _], h | [_, _, _], h => cases h

/-- The words of a piece after its header. The last word does not end with a zero. -/
theorem later_padded {p : List UInt8} (hp : NoMagic p) :
    Later (words (p ++ List.replicate (upperAlign p.length - p.length) 0)) := by
  obtain ⟨n, hn⟩ : ∃ n, n = upperAlign p.length - p.length := ⟨_, rfl⟩
  rw [← hn]
  refine .of_forall fun w hw hmagic => ?_
  obtain ⟨j, hj, rfl⟩ := List.mem_iff_getElem.mp hw
  have hwords := words_drop (p ++ List.replicate n 0) j
  rw [List.drop_eq_getElem_cons hj, hmagic] at hwords
  have hbytes := take_of_words hwords
  rw [length_words, List.length_append, List.length_replicate] at hj
  by_cases hinside : 4 * j + 4 ≤ p.length
  · refine hp j ?_
    rwa [List.drop_append_of_le_length (by omega), List.take_append_of_le_length
      (by rw [List.length_drop]; omega)] at hbytes
  · have hlast := congrArg (fun bs => bs[3]?) hbytes
    simp only [List.getElem?_take, List.getElem?_drop, magic] at hlast
    rw [if_pos (by omega), List.getElem?_append_right (by omega), List.getElem?_replicate,
      if_pos (by omega)] at hlast
    exact absurd hlast (by decide)

theorem words_encodePiece {cflag : ℕ} (hflag : cflag ≤ 3) {p : List UInt8}
    (hlen : p.length < 2 ^ 29) (hp : NoMagic p) :
    ∃ rest, words (encodePiece cflag p) = kMagic :: encodeLRec cflag p.length :: rest ∧
      Later rest := by
  have hhead : words (magic ++ leBytes 4 (encodeLRec cflag p.length)) =
      [kMagic, encodeLRec cflag p.length] := by
    have hword := ofLeBytes_leBytes (n := 4)
      ((encodeLRec_lt hflag hlen).trans (by decide : kMagic < 256 ^ 4))
    have hmagic := ofLeBytes_magic
    simp only [magic, leBytes] at hword hmagic ⊢
    simp only [List.cons_append, List.nil_append, words, hword, hmagic]
  refine ⟨_, ?_, later_padded hp⟩
  rw [encodePiece, List.append_assoc, words_append (by simp [length_magic, length_leBytes]), hhead]
  rfl

theorem length_encodePiece_mod (cflag : ℕ) (p : List UInt8) :
    (encodePiece cflag p).length % 4 = 0 := by
  rw [RecordIOReader.length_encodePiece, upperAlign_eq]
  omega

theorem later_encodePiece {cflag : ℕ} (hflag : cflag = 2 ∨ cflag = 3) {p : List UInt8}
    (hlen : p.length < 2 ^ 29) (hp : NoMagic p) : Later (words (encodePiece cflag p)) := by
  obtain ⟨rest, hwords, hrest⟩ := words_encodePiece (by omega : cflag ≤ 3) hlen hp
  rw [hwords]
  refine .piece (encodeLRec_lt (by omega) hlen).ne ?_ hrest
  rw [isFirst, decodeFlag_encodeLRec (by omega) hlen]
  rcases hflag with rfl | rfl <;> rfl

theorem length_encodeRecord_mod {buf : List UInt8} (hlen : buf.length < 2 ^ 29) :
    (encodeRecord buf).length % 4 = 0 := by
  obtain ⟨ps, last, -, hencode⟩ := encodeRecord_eq hlen
  have hpieces : ∀ qs : List (List UInt8), (qs.flatMap (encodePiece 2)).length % 4 = 0 := by
    intro qs
    induction qs with
    | nil => rfl
    | cons q qs ih =>
      have hq := length_encodePiece_mod 2 q
      rw [List.flatMap_cons, List.length_append]
      omega
  rw [hencode, encodePieces, List.length_append]
  have hlast := length_encodePiece_mod (if ps = [] then 0 else 3) last
  cases ps with
  | nil =>
    rw [encodeHead, List.length_nil]
    omega
  | cons p ps =>
    have hp := length_encodePiece_mod 1 p
    have hps := hpieces ps
    rw [encodeHead, List.length_append]
    omega

/-- **The words of a record**: it begins with the header of a first piece, and no other does. -/
theorem isRecord_encodeRecord {buf : List UInt8} (hlen : buf.length < 2 ^ 29) :
    IsRecord (words (encodeRecord buf)) := by
  obtain ⟨ps, last, hpieces, hencode⟩ := encodeRecord_eq hlen
  obtain ⟨hps, hlast⟩ := hpieces.length_lt hlen
  rw [hencode, encodePieces]
  cases ps with
  | nil =>
    obtain ⟨rest, hwords, hrest⟩ := words_encodePiece (Nat.zero_le 3) hlast hpieces.last
    refine ⟨_, rest, hwords, (encodeLRec_lt (Nat.zero_le 3) hlast).ne, ?_, hrest⟩
    rw [isFirst, decodeFlag_encodeLRec (Nat.zero_le 3) hlast]
    rfl
  | cons p ps =>
    have hp := hps p List.mem_cons_self
    obtain ⟨rest, hwords, hrest⟩ :=
      words_encodePiece (show 1 ≤ 3 by omega) hp (hpieces.noMagic p List.mem_cons_self)
    have hmiddle : ∀ qs : List (List UInt8), (∀ q ∈ qs, q.length < 2 ^ 29 ∧ NoMagic q) →
        Later (words (qs.flatMap (encodePiece 2) ++ encodePiece 3 last)) := by
      intro qs hqs
      induction qs with
      | nil => exact later_encodePiece (Or.inr rfl) hlast hpieces.last
      | cons q qs ih =>
        obtain ⟨hq, hmagic⟩ := hqs q List.mem_cons_self
        rw [List.flatMap_cons, List.append_assoc, words_append (length_encodePiece_mod 2 q)]
        exact (later_encodePiece (Or.inl rfl) hq hmagic).append
          (ih fun r hr => hqs r (List.mem_cons_of_mem _ hr))
    have htail := hmiddle ps fun q hq =>
      ⟨hps q (List.mem_cons_of_mem _ hq), hpieces.noMagic q (List.mem_cons_of_mem _ hq)⟩
    refine ⟨_, rest ++ _, ?_, (encodeLRec_lt (show 1 ≤ 3 by omega) hp).ne, ?_, hrest.append htail⟩
    · rw [if_neg (List.cons_ne_nil p ps), encodeHead, List.append_assoc,
        words_append (length_encodePiece_mod 1 p), hwords]
      rfl
    · rw [isFirst, decodeFlag_encodeLRec (show 1 ≤ 3 by omega) hp]
      rfl

/-! ## The words of a file -/

/-- Records that can be written. -/
def Short (recs : List (List UInt8)) : Prop := ∀ rec ∈ recs, rec.length < 2 ^ 29

theorem Short.drop {recs : List (List UInt8)} (h : Short recs) (i : ℕ) : Short (recs.drop i) :=
  fun rec hrec => h rec (List.mem_of_mem_drop hrec)

theorem Short.take {recs : List (List UInt8)} (h : Short recs) (i : ℕ) : Short (recs.take i) :=
  fun rec hrec => h rec (List.mem_of_mem_take hrec)

theorem encodeRecords_append (as bs : List (List UInt8)) :
    encodeRecords (as ++ bs) = encodeRecords as ++ encodeRecords bs := List.flatMap_append

theorem length_encodeRecords_mod {recs : List (List UInt8)} (h : Short recs) :
    (encodeRecords recs).length % 4 = 0 := by
  induction recs with
  | nil => rfl
  | cons rec recs ih =>
    have hrec := length_encodeRecord_mod (h rec List.mem_cons_self)
    have hrest := ih fun r hr => h r (List.mem_cons_of_mem _ hr)
    rw [encodeRecords, List.flatMap_cons, List.length_append]
    rw [encodeRecords] at hrest
    omega

theorem words_encodeRecords_cons {rec : List UInt8} {recs : List (List UInt8)}
    (h : Short (rec :: recs)) :
    words (encodeRecords (rec :: recs)) =
      words (encodeRecord rec) ++ words (encodeRecords recs) := by
  rw [encodeRecords, List.flatMap_cons,
    words_append (length_encodeRecord_mod (h rec List.mem_cons_self))]
  rfl

/-- How many records begin before word `j`. -/
def begun : List (List UInt8) → ℕ → ℕ
  | [], _ => 0
  | rec :: recs, j => if j = 0 then 0 else begun recs (j - (words (encodeRecord rec)).length) + 1

theorem begun_zero (recs : List (List UInt8)) : begun recs 0 = 0 := by
  cases recs with
  | nil => rfl
  | cons rec recs => rw [begun, if_pos rfl]

theorem begun_le (recs : List (List UInt8)) (j : ℕ) : begun recs j ≤ recs.length := by
  induction recs generalizing j with
  | nil => exact le_rfl
  | cons rec recs ih =>
    rw [begun, List.length_cons]
    split
    · exact Nat.zero_le _
    · exact Nat.succ_le_succ (ih _)

theorem begun_mono (recs : List (List UInt8)) {i j : ℕ} (h : i ≤ j) :
    begun recs i ≤ begun recs j := by
  induction recs generalizing i j with
  | nil => exact le_rfl
  | cons rec recs ih =>
    rw [begun, begun]
    by_cases hi : i = 0
    · rw [if_pos hi]
      exact Nat.zero_le _
    · rw [if_neg hi, if_neg (by omega)]
      exact Nat.succ_le_succ (ih (Nat.sub_le_sub_right h _))

theorem begun_append (as bs : List (List UInt8)) {j : ℕ} (has : Short as)
    (hj : (words (encodeRecords as)).length ≤ j) :
    begun (as ++ bs) j = as.length + begun bs (j - (words (encodeRecords as)).length) := by
  induction as generalizing j with
  | nil => simp [encodeRecords, words]
  | cons rec as ih =>
    obtain ⟨lrec, rest, hwords, -⟩ :=
      (isRecord_encodeRecord (has rec List.mem_cons_self)).exists_eq
    have hpos : 0 < (words (encodeRecord rec)).length := by simp [hwords]
    rw [words_encodeRecords_cons has, List.length_append] at hj ⊢
    rw [List.cons_append, begun, if_neg (by omega),
      ih (fun r hr => has r (List.mem_cons_of_mem _ hr)) (by omega), List.length_cons,
      Nat.sub_sub]
    omega

theorem begun_append_of_le (as bs : List (List UInt8)) {j : ℕ} (has : Short as)
    (hj : j ≤ (words (encodeRecords as)).length) : begun (as ++ bs) j = begun as j := by
  induction as generalizing j with
  | nil =>
    obtain rfl : j = 0 := by simpa [encodeRecords, words] using hj
    rw [begun_zero, begun_zero]
  | cons rec as ih =>
    rw [words_encodeRecords_cons has, List.length_append] at hj
    rw [List.cons_append, begun, begun,
      ih (fun r hr => has r (List.mem_cons_of_mem _ hr)) (by omega)]

/-- **The words from any word on**: the rest of a record, and the records that begin there. -/
theorem split_spec {recs : List (List UInt8)} (h : Short recs) {j : ℕ}
    (hj : j ≤ (words (encodeRecords recs)).length) :
    ∃ tail, Later tail ∧
      (words (encodeRecords recs)).drop j =
        tail ++ words (encodeRecords (recs.drop (begun recs j))) ∧
      j + tail.length = (words (encodeRecords (recs.take (begun recs j)))).length := by
  induction recs generalizing j with
  | nil =>
    obtain rfl : j = 0 := by simpa [encodeRecords, words] using hj
    exact ⟨[], .nil, rfl, rfl⟩
  | cons rec recs ih =>
    have hrecs : Short recs := fun r hr => h r (List.mem_cons_of_mem _ hr)
    have hlen := congrArg List.length (words_encodeRecords_cons h)
    rw [List.length_append] at hlen
    rw [begun]
    by_cases hzero : j = 0
    · subst hzero
      exact ⟨[], .nil, by simp, by simp [encodeRecords, words]⟩
    · rw [if_neg hzero]
      obtain ⟨lrec, rest, hwords, hne, -, hrest⟩ :=
        (isRecord_encodeRecord (h rec List.mem_cons_self)).exists_eq
      by_cases hinside : j ≤ (words (encodeRecord rec)).length
      · refine ⟨(words (encodeRecord rec)).drop j, ?_, ?_, ?_⟩
        · rw [hwords, show j = (j - 1) + 1 by omega, List.drop_succ_cons]
          exact (Later.plain hne hrest).drop _
        · rw [words_encodeRecords_cons h, List.drop_append_of_le_length hinside,
            Nat.sub_eq_zero_of_le hinside, begun_zero]
          rfl
        · rw [Nat.sub_eq_zero_of_le hinside, begun_zero, List.length_drop]
          have hone : words (encodeRecords ((rec :: recs).take (0 + 1))) =
              words (encodeRecord rec) := by simp [encodeRecords]
          rw [hone]
          omega
      · obtain ⟨tail, htail, hdrop, hlength⟩ :=
          ih hrecs (show j - (words (encodeRecord rec)).length ≤ _ by omega)
        refine ⟨tail, htail, ?_, ?_⟩
        · rw [words_encodeRecords_cons h, List.drop_append, List.drop_of_length_le (by omega),
            List.nil_append, hdrop, List.drop_succ_cons]
        · have htake : Short
              (rec :: recs.take (begun recs (j - (words (encodeRecord rec)).length))) := by
            intro r hr
            rcases List.mem_cons.mp hr with rfl | hr
            · exact h _ List.mem_cons_self
            · exact hrecs.take _ r hr
          rw [List.take_succ_cons, words_encodeRecords_cons htake, List.length_append]
          omega

theorem length_encodeRecords {recs : List (List UInt8)} (h : Short recs) :
    (encodeRecords recs).length = 4 * (words (encodeRecords recs)).length := by
  have hmod := length_encodeRecords_mod h
  rw [length_words]
  omega

/-- The words of records are none, or they begin a record. -/
theorem words_encodeRecords_cases {recs : List (List UInt8)} (h : Short recs) :
    words (encodeRecords recs) = [] ∨
      ∃ lrec ws, words (encodeRecords recs) = kMagic :: lrec :: ws ∧ isFirst lrec = true := by
  cases recs with
  | nil => exact Or.inl rfl
  | cons rec recs =>
    obtain ⟨lrec, rest, hwords, -, hfirst, -⟩ :=
      (isRecord_encodeRecord (h rec List.mem_cons_self)).exists_eq
    refine Or.inr ⟨lrec, rest ++ words (encodeRecords recs), ?_, hfirst⟩
    rw [words_encodeRecords_cons h, hwords]
    rfl

/-- `FindNextRecordIOHead` skips words among which no record begins. -/
theorem findNextHead_later {tail : List ℕ} (htail : Later tail) {recs : List (List UInt8)}
    (h : Short recs) : findNextHead (tail ++ words (encodeRecords recs)) = tail.length := by
  have hplain : ∀ {w : ℕ} {ws : List ℕ}, w ≠ kMagic →
      findNextHead (w :: ws) = findNextHead ws + 1 := by
    intro w ws hne
    cases ws with
    | nil => rfl
    | cons v ws => rw [findNextHead, if_neg fun h => hne h.1]
  induction htail with
  | nil =>
    rcases words_encodeRecords_cases h with hnil | ⟨lrec, ws, hwords, hfirst⟩
    · rw [hnil]
      rfl
    · rw [hwords, List.nil_append, findNextHead, if_pos ⟨rfl, hfirst⟩]
      rfl
  | plain hne _ ih => rw [List.cons_append, hplain hne, ih, List.length_cons]
  | @piece lrec ws hne hflag _ ih =>
    rw [List.cons_append, List.cons_append, findNextHead,
      if_neg fun h => absurd (hflag.symm.trans h.2) Bool.false_ne_true, hplain hne, ih,
      List.length_cons, List.length_cons]

/-! ## Parts and chunks -/

namespace RecordIOSplitter

/-- `SeekRecordBegin` skips words among which no record begins. -/
theorem seekWords_later {tail : List ℕ} (htail : Later tail) {recs : List (List UInt8)}
    (h : Short recs) : seekWords (tail ++ words (encodeRecords recs)) = some tail.length := by
  induction htail with
  | nil =>
    rcases words_encodeRecords_cases h with hnil | ⟨lrec, ws, hwords, hfirst⟩
    · rw [hnil]
      rfl
    · simp [hwords, seekWords, hfirst]
  | plain hne _ ih =>
    rw [List.cons_append, seekWords.eq_def]
    simp only [if_neg hne, ih, Option.map_some, List.length_cons]
  | piece _ hflag _ ih => simp [seekWords, hflag, ih]

theorem scanBack_le (ws : List ℕ) (p : ℕ) : scanBack ws p ≤ p := by
  induction p with
  | zero => exact le_rfl
  | succ p ih =>
    rw [scanBack]
    split
    · exact le_rfl
    · exact ih.trans (Nat.le_succ p)

/-- What `FindLastRecordBegin` finds after the first word. -/
theorem scanBack_spec {ws : List ℕ} {p q : ℕ} (h : scanBack ws p = q + 1) :
    ws.getD (q + 1) 0 = kMagic ∧ isFirst (ws.getD (q + 2) 0) = true := by
  induction p with
  | zero => cases h
  | succ p ih =>
    rw [scanBack] at h
    split at h
    · next hfound =>
      obtain rfl : p = q := by omega
      exact hfound
    · exact ih h

theorem finds : recordIOSplitter.Finds := by
  intro buf hne hmod
  have hlen := List.length_pos_iff.mpr hne
  have hscan := scanBack_le (words buf) ((words buf).length - 2)
  have hwords := length_words buf
  refine ⟨4 * scanBack (words buf) ((words buf).length - 2), by omega, ?_⟩
  show findLastRecordBegin buf = _
  rw [findLastRecordBegin, if_neg (by omega), if_neg (by omega)]

variable {fs : List (List (List UInt8))}

theorem flatten_map_encodeRecords (fs : List (List (List UInt8))) :
    (fs.map encodeRecords).flatten = encodeRecords fs.flatten := by
  induction fs with
  | nil => rfl
  | cons recs fs ih =>
    rw [List.map_cons, List.flatten_cons, List.flatten_cons, encodeRecords_append, ih]

/-- **The ends of a part** that should end at `x` are moved to the next beginning of a record. -/
theorem cut_eq (h : Short fs.flatten) {x : ℕ} (hx : x ≤ (fs.map encodeRecords).flatten.length)
    (hmod : x % 4 = 0) :
    recordIOSplitter.cut (fs.map encodeRecords) x =
      some (encodeRecords (fs.flatten.take (begun fs.flatten (x / 4)))).length := by
  obtain ⟨fp, hfp⟩ : ∃ fp, fp = InputSplitBase.upperFile (fs.map encodeRecords) x := ⟨_, rfl⟩
  have hsplit : fs.flatten = (fs.take fp).flatten ++ (fs.drop fp).flatten := by
    rw [← List.flatten_append, List.take_append_drop]
  have has : Short (fs.take fp).flatten := fun rec hrec => h rec (by
    rw [hsplit]
    exact List.mem_append_left _ hrec)
  have hoff : fileOffset (fs.map encodeRecords) fp =
      4 * (words (encodeRecords (fs.take fp).flatten)).length := by
    rw [← InputSplitBase.length_flatten_take, ← List.map_take, flatten_map_encodeRecords,
      length_encodeRecords has]
  unfold RecordSplit.cut
  simp only [← hfp]
  by_cases hedge : x = fileOffset (fs.map encodeRecords) fp
  · -- the part ends with a file
    rw [if_neg (not_not.mpr hedge), hedge, hoff, Nat.mul_div_cancel_left _ (by omega), hsplit,
      begun_append _ _ has le_rfl, Nat.sub_self, begun_zero, Nat.add_zero, List.take_left,
      length_encodeRecords has]
  · have hlt : x < (fs.map encodeRecords).flatten.length := by
      refine lt_of_le_of_ne hx ?_
      rintro rfl
      rw [InputSplitBase.upperFile_length] at hfp
      rw [hfp, InputSplitBase.fileOffset_length] at hedge
      exact hedge rfl
    obtain ⟨hfile, hbelow, habove⟩ := InputSplitBase.upperFile_spec hlt
    rw [← hfp] at hfile hbelow habove
    rw [InputSplitBase.fileOffset_succ hfile] at habove
    rw [List.length_map] at hfile
    obtain ⟨recs, hrecs⟩ : ∃ recs, recs = fs[fp] := ⟨_, rfl⟩
    have hget : (fs.map encodeRecords).getD fp [] = encodeRecords recs := by
      rw [List.getD_eq_getElem?_getD, List.getElem?_map, List.getElem?_eq_getElem hfile, hrecs]
      rfl
    have hdrop : (fs.drop fp).flatten = recs ++ (fs.drop (fp + 1)).flatten := by
      rw [List.drop_eq_getElem_cons hfile, List.flatten_cons, hrecs]
    have hshort : Short recs := fun rec hrec => h rec (by
      rw [hsplit, hdrop]
      exact List.mem_append_right _ (List.mem_append_left _ hrec))
    rw [hget, length_encodeRecords hshort] at habove
    obtain ⟨j, hj⟩ : ∃ j, x = 4 * ((words (encodeRecords (fs.take fp).flatten)).length + j) :=
      ⟨x / 4 - (words (encodeRecords (fs.take fp).flatten)).length, by omega⟩
    obtain ⟨tail, htail, hwords, hlength⟩ := split_spec hshort (show j ≤ _ by omega)
    have hseek : recordIOSplitter.seekRecordBegin
        (InputSplitBase.seek (fs.map encodeRecords) fp x) = some (4 * tail.length) := by
      show seekRecordBegin _ = _
      rw [InputSplitBase.seek, hget, hoff, hj, Nat.mul_add, Nat.add_sub_cancel_left,
        seekRecordBegin, words_drop, hwords, seekWords_later htail (hshort.drop _)]
      rfl
    have hbegun : begun fs.flatten (x / 4) = (fs.take fp).flatten.length + begun recs j := by
      rw [hj, Nat.mul_div_cancel_left _ (by omega), hsplit,
        begun_append _ _ has (Nat.le_add_right _ _), Nat.add_sub_cancel_left, hdrop,
        begun_append_of_le _ _ hshort (by omega)]
    have htake : fs.flatten.take (begun fs.flatten (x / 4)) =
        (fs.take fp).flatten ++ recs.take (begun recs j) := by
      rw [hbegun, hsplit, List.take_length_add_append, hdrop,
        List.take_append_of_le_length (begun_le recs j)]
    rw [if_pos hedge, hseek, htake, encodeRecords_append, List.length_append,
      length_encodeRecords has, length_encodeRecords (hshort.take _)]
    simp only [Option.map_some, Option.some.injEq]
    omega

/-- **A chunk that was cut off** ends where a record begins. -/
theorem records_of_cutOff {recs : List (List UInt8)} (h : Short recs) {bytes rest : List UInt8}
    (hall : bytes ++ rest = encodeRecords recs) (hne : bytes ≠ [])
    (hcut : recordIOSplitter.CutOff bytes rest) :
    ∃ m, bytes = encodeRecords (recs.take m) ∧ rest = encodeRecords (recs.drop m) := by
  obtain ⟨buf, ⟨later, hlater⟩, hmod, hfind⟩ := hcut
  have hlen := List.length_pos_iff.mpr hne
  rw [hall] at hlater
  simp only [recordIOSplitter, findLastRecordBegin] at hfind
  rw [if_neg (by omega)] at hfind
  split at hfind
  · cases hfind
  next hroom =>
  rw [Option.some.injEq] at hfind
  obtain ⟨q, hq⟩ : ∃ q, scanBack (words buf) ((words buf).length - 2) = q + 1 :=
    ⟨scanBack (words buf) ((words buf).length - 2) - 1, by omega⟩
  have hqle := scanBack_le (words buf) ((words buf).length - 2)
  obtain ⟨hmagic, hfirst⟩ := scanBack_spec hq
  have hwords : words (encodeRecords recs) = words buf ++ words later := by
    rw [← hlater, words_append (by omega)]
  have hhead : ∃ lrec ws, (words (encodeRecords recs)).drop (q + 1) = kMagic :: lrec :: ws ∧
      isFirst lrec = true := by
    have h1 : q + 1 < (words buf).length := by omega
    have h2 : q + 1 + 1 < (words buf).length := by omega
    rw [List.getD_eq_getElem _ _ h1] at hmagic
    rw [List.getD_eq_getElem _ _ h2] at hfirst
    refine ⟨(words buf)[q + 1 + 1], (words buf).drop (q + 1 + 1 + 1) ++ words later, ?_, hfirst⟩
    rw [hwords, List.drop_append_of_le_length h1.le, List.drop_eq_getElem_cons h1, hmagic,
      List.drop_eq_getElem_cons h2]
    rfl
  obtain ⟨lrec, ws, hdrop, hflag⟩ := hhead
  have hroom' : q + 1 ≤ (words (encodeRecords recs)).length := by
    rw [hwords, List.length_append]
    omega
  obtain ⟨tail, htail, hsplit, hlength⟩ := split_spec h hroom'
  rw [hdrop] at hsplit
  -- no record begins among the words of `tail`
  have hnil : tail = [] := by
    cases htail with
    | nil => rfl
    | plain hw _ =>
      rw [List.cons_append, List.cons.injEq] at hsplit
      exact absurd hsplit.1.symm hw
    | piece _ hlater _ =>
      rw [List.cons_append, List.cons_append, List.cons.injEq, List.cons.injEq] at hsplit
      rw [← hsplit.2.1, hflag] at hlater
      cases hlater
  subst hnil
  rw [List.length_nil, Nat.add_zero] at hlength
  have hpre : bytes.length = (encodeRecords (recs.take (begun recs (q + 1)))).length := by
    rw [length_encodeRecords (h.take _), ← hlength, ← hfind, hq]
  rw [← List.take_append_drop (begun recs (q + 1)) recs, encodeRecords_append] at hall
  obtain ⟨hbytes, hrest⟩ := List.append_inj hall hpre
  exact ⟨_, hbytes, hrest⟩

/-- **Chunks are whole records.** -/
theorem chunks_eq {recs : List (List UInt8)} (h : Short recs) {all rest : List UInt8}
    (hall : all = encodeRecords recs) {chunks : List (List UInt8)}
    (hchunked : recordIOSplitter.Chunked all chunks rest) :
    ∃ (css : List (List (List UInt8))) (rs : List (List UInt8)),
      chunks = css.map encodeRecords ∧ rest = encodeRecords rs ∧ css.flatten ++ rs = recs := by
  induction hchunked with
  | nil => exact ⟨[], recs, rfl, hall, rfl⟩
  | @snoc chunks bytes rest _ hne hcut ih =>
    obtain ⟨css, rs, hchunks, hbytes, hrecs⟩ := ih
    have hrs : Short rs := fun rec hrec => h rec (by
      rw [← hrecs]
      exact List.mem_append_right _ hrec)
    obtain ⟨m, hm, hrest⟩ : ∃ m, bytes = encodeRecords (rs.take m) ∧
        rest = encodeRecords (rs.drop m) := by
      by_cases hend : rest = []
      · refine ⟨rs.length, ?_, ?_⟩
        · rw [hend, List.append_nil] at hbytes
          rw [List.take_length, hbytes]
        · rw [List.drop_length, hend]
          rfl
      · exact records_of_cutOff hrs hbytes hne (hcut hend)
    refine ⟨css ++ [rs.take m], rs.drop m, ?_, hrest, ?_⟩
    · rw [List.map_append, List.map_singleton, hchunks, hm]
    · rw [List.flatten_append, List.flatten_singleton, List.append_assoc, List.take_append_drop,
        hrecs]

end RecordIOSplitter

end Difacto.Io
