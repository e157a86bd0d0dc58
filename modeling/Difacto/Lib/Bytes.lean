import Mathlib.Data.List.Basic
import Mathlib.Tactic.Ring

/-!
# Byte streams of fixed-width values and of records

Little-endian numbers, arrays of values that each take the same number of bytes, and a
stream of records `key, value, key, value, …` that is read until no further key can be
read.

A read may be short: `readInto` overwrites as much of the destination as the stream has
bytes and leaves the rest of it as it was.

## Main definitions

* `leBytes`, `ofLeBytes` — little-endian numbers.
* `FixedBytes`, `ofBytesArray` — values of one width, and arrays of them.
* `readInto` — one read from a stream into a destination.
* `readRecords` — the reading loop; `readRecords_flatMap` — it reads back what was written.
* `foldl_frame`, `foldl_once` — what records do to a store that is looked up by key.
-/

namespace Difacto.Lib

universe u v w x

/-! ## Numbers -/

/-- The `n` lowest bytes of a number, lowest first. -/
def leBytes : ℕ → ℕ → List UInt8
  | 0, _ => []
  | n + 1, x => UInt8.ofNat x :: leBytes n (x / 256)

/-- The number that little-endian bytes stand for. -/
def ofLeBytes : List UInt8 → ℕ
  | [] => 0
  | b :: bs => b.toNat + 256 * ofLeBytes bs

@[simp] theorem length_leBytes (n x : ℕ) : (leBytes n x).length = n := by
  induction n generalizing x with
  | zero => rfl
  | succ n ih => simp [leBytes, ih]

theorem ofLeBytes_leBytes {n x : ℕ} (h : x < 256 ^ n) : ofLeBytes (leBytes n x) = x := by
  induction n generalizing x with
  | zero =>
      have hx : x = 0 := by simpa using h
      simp [leBytes, ofLeBytes, hx]
  | succ n ih =>
      have hdiv : x / 256 < 256 ^ n := by
        rw [Nat.div_lt_iff_lt_mul (by omega)]
        rwa [Nat.pow_succ] at h
      have hbyte : (UInt8.ofNat x).toNat = x % 256 := by simp
      rw [leBytes, ofLeBytes, ih hdiv, hbyte]
      omega

/-! ## Values of one width -/

/-- Values that take `width` bytes each. -/
class FixedBytes (F : Type u) where
  width : ℕ
  toBytes : F → List UInt8
  ofBytes : List UInt8 → F

/-- Every value is read back from its bytes. -/
class LawfulFixedBytes (F : Type u) [FixedBytes F] : Prop where
  length_toBytes (x : F) : (FixedBytes.toBytes x).length = FixedBytes.width F
  ofBytes_toBytes (x : F) : FixedBytes.ofBytes (FixedBytes.toBytes x) = x

export LawfulFixedBytes (length_toBytes ofBytes_toBytes)

attribute [simp] length_toBytes ofBytes_toBytes

section Arrays

variable {F : Type u} [FixedBytes F]

/-- The bytes of an array. -/
def toBytesArray (xs : List F) : List UInt8 := xs.flatMap FixedBytes.toBytes

/-- The first `n` values of an array given by its bytes. -/
def ofBytesArray : ℕ → List UInt8 → List F
  | 0, _ => []
  | n + 1, bs =>
    FixedBytes.ofBytes (bs.take (FixedBytes.width F)) ::
      ofBytesArray n (bs.drop (FixedBytes.width F))

@[simp] theorem length_ofBytesArray (n : ℕ) (bs : List UInt8) :
    (ofBytesArray n bs : List F).length = n := by
  induction n generalizing bs with
  | zero => rfl
  | succ n ih => simp [ofBytesArray, ih]

variable [LawfulFixedBytes F]

@[simp] theorem length_toBytesArray (xs : List F) :
    (toBytesArray xs).length = FixedBytes.width F * xs.length := by
  induction xs with
  | nil => rfl
  | cons x xs ih =>
      simp only [toBytesArray, List.flatMap_cons, List.length_append, length_toBytes,
        List.length_cons] at ih ⊢
      rw [ih]
      ring

theorem ofBytesArray_toBytesArray (xs : List F) :
    ofBytesArray xs.length (toBytesArray xs) = xs := by
  induction xs with
  | nil => rfl
  | cons x xs ih =>
      simp only [toBytesArray, List.flatMap_cons, List.length_cons, ofBytesArray] at ih ⊢
      rw [List.take_left' (length_toBytes x), List.drop_left' (length_toBytes x), ih,
        ofBytes_toBytes]

end Arrays

/-! ## Streams -/

/-- Read `n` bytes into a destination that holds `old`: what the destination holds
after it, and the rest of the stream. -/
def readInto (n : ℕ) (old bs : List UInt8) : List UInt8 × List UInt8 :=
  (bs.take n ++ old.drop (min n bs.length), bs.drop n)

/-- A read that is not short replaces the whole destination. -/
theorem readInto_append {n : ℕ} {old xs rest : List UInt8} (hn : xs.length = n)
    (hold : old.length ≤ n) : readInto n old (xs ++ rest) = (xs, rest) := by
  have hmin : min n (xs ++ rest).length = n := by
    rw [List.length_append]
    omega
  rw [readInto, hmin, List.take_left' hn, List.drop_left' hn, List.drop_eq_nil_of_le hold,
    List.append_nil]

/-- What a reading loop ends with: its state, how many bytes were left after each
record, and the rest of the stream. -/
structure Loaded (σ : Type v) where
  state : σ
  ends : List ℕ
  rest : List UInt8

/-- Read records until `key` fails. `body` reads the value of one record into the
state. The first argument bounds the number of records. -/
def recordLoop {κ : Type u} {σ : Type v} (key : List UInt8 → Option (κ × List UInt8))
    (body : κ → σ → List UInt8 → Option (σ × List UInt8)) :
    ℕ → σ → List UInt8 → Option (Loaded σ)
  | 0, s, bs => some { state := s, ends := [], rest := bs }
  | fuel + 1, s, bs =>
    match key bs with
    | none => some { state := s, ends := [], rest := bs }
    | some (k, bs) =>
      match body k s bs with
      | none => none
      | some (s, bs) => (recordLoop key body fuel s bs).map fun l =>
          { l with ends := bs.length :: l.ends }

/-- The number of bytes after each record. -/
def recordEnds {ρ : Type u} (enc : ρ → List UInt8) : List ρ → List ℕ
  | [] => []
  | _ :: rs => (rs.flatMap enc).length :: recordEnds enc rs

theorem recordEnds_map {ρ : Type u} {ρ' : Type w} {enc : ρ → List UInt8} {enc' : ρ' → List UInt8}
    {f : ρ → ρ'} {rs : List ρ} (h : ∀ r ∈ rs, enc' (f r) = enc r) :
    recordEnds enc' (rs.map f) = recordEnds enc rs := by
  induction rs with
  | nil => rfl
  | cons r rs ih =>
      have hrs : ∀ r' ∈ rs, enc' (f r') = enc r' := fun r' hr' => h r' (List.mem_cons_of_mem _ hr')
      have hflat : (rs.map f).flatMap enc' = rs.flatMap enc := by
        rw [List.flatMap_map]
        exact List.flatMap_congr hrs
      rw [List.map_cons, recordEnds, recordEnds, hflat, ih hrs]

/-- A stream of records that is cut off somewhere: some records, and a part of the next one. -/
theorem take_flatMap_cases {ρ : Type u} (enc : ρ → List UInt8) (rs : List ρ) (n : ℕ)
    (hn : n ≤ (rs.flatMap enc).length) : ∃ i part, i ≤ rs.length ∧
      (rs.flatMap enc).take n = (rs.take i).flatMap enc ++ part ∧
      n = ((rs.take i).flatMap enc).length + part.length ∧
      (part = [] ∨ ∃ r ∈ rs[i]?, ∃ m < (enc r).length, part = (enc r).take m) := by
  induction rs generalizing n with
  | nil => exact ⟨0, [], le_rfl, by simp, by simpa using hn, .inl rfl⟩
  | cons r rs ih =>
      rw [List.flatMap_cons, List.length_append] at hn
      by_cases hcut : n < (enc r).length
      · refine ⟨0, (enc r).take n, Nat.zero_le _, ?_, ?_, .inr ⟨r, rfl, n, hcut, rfl⟩⟩
        · rw [List.flatMap_cons, List.take_append_of_le_length hcut.le]
          rfl
        · rw [List.length_take, min_eq_left hcut.le]
          exact (Nat.zero_add n).symm
      · obtain ⟨i, part, hi, htake, hlen, hpart⟩ := ih (n - (enc r).length) (by omega)
        refine ⟨i + 1, part, Nat.succ_le_succ hi, ?_, ?_, hpart⟩
        · rw [List.flatMap_cons, List.take_append, List.take_of_length_le (by omega), htake,
            List.take_succ_cons, List.flatMap_cons, List.append_assoc]
        · rw [List.take_succ_cons, List.flatMap_cons, List.length_append]
          omega

/-- The loop over a whole stream: a record takes at least one byte. -/
def readRecords {κ : Type u} {σ : Type v} (key : List UInt8 → Option (κ × List UInt8))
    (body : κ → σ → List UInt8 → Option (σ × List UInt8)) (s : σ) (bs : List UInt8) :
    Option (Loaded σ) :=
  recordLoop key body (bs.length + 1) s bs

section ReadBack

variable {κ : Type u} {σ : Type v} {ρ : Type w} {key : List UInt8 → Option (κ × List UInt8)}
  {body : κ → σ → List UInt8 → Option (σ × List UInt8)} {enc : ρ → List UInt8}
  {put : σ → ρ → σ} {rs : List ρ}

theorem recordLoop_flatMap (hnil : key [] = none)
    (hread : ∀ r ∈ rs, ∀ s rest, ∃ k bs, key (enc r ++ rest) = some (k, bs) ∧
      body k s bs = some (put s r, rest)) :
    ∀ (fuel : ℕ) (s : σ), rs.length < fuel → recordLoop key body fuel s (rs.flatMap enc) =
      some { state := rs.foldl put s, ends := recordEnds enc rs, rest := [] } := by
  induction rs with
  | nil =>
      intro fuel s hfuel
      cases fuel with
      | zero => simp at hfuel
      | succ fuel => simp [recordLoop, recordEnds, hnil]
  | cons r rs ih =>
      intro fuel s hfuel
      cases fuel with
      | zero => simp at hfuel
      | succ fuel =>
          obtain ⟨k, bs, hkey, hbody⟩ := hread r (by simp) s (rs.flatMap enc)
          have hrest := ih (fun r' hr' => hread r' (List.mem_cons_of_mem _ hr')) fuel
            (put s r) (by simpa using hfuel)
          simp only [recordLoop, List.flatMap_cons, hkey, hbody, hrest, Option.map_some,
            recordEnds, List.foldl_cons]

theorem length_le_flatMap (h : ∀ r ∈ rs, enc r ≠ []) : rs.length ≤ (rs.flatMap enc).length := by
  induction rs with
  | nil => simp
  | cons r rs ih =>
      have hr : 0 < (enc r).length := List.length_pos_iff.mpr (h r (by simp))
      have hrs := ih fun r' hr' => h r' (List.mem_cons_of_mem _ hr')
      simp only [List.flatMap_cons, List.length_append, List.length_cons]
      omega

/-- **Reading back records.** A loop whose key and body read what was written takes up
the records one by one, at the boundaries at which they were written, to the end of the
stream. -/
theorem readRecords_flatMap (hnil : key [] = none)
    (hread : ∀ r ∈ rs, ∀ s rest, ∃ k bs, key (enc r ++ rest) = some (k, bs) ∧
      body k s bs = some (put s r, rest)) (s : σ) :
    readRecords key body s (rs.flatMap enc) =
      some { state := rs.foldl put s, ends := recordEnds enc rs, rest := [] } := by
  have hne : ∀ r ∈ rs, enc r ≠ [] := by
    intro r hr hempty
    obtain ⟨k, bs, hkey, -⟩ := hread r hr s []
    rw [hempty, List.append_nil, hnil] at hkey
    cases hkey
  exact recordLoop_flatMap hnil hread _ s (Nat.lt_succ_of_le (length_le_flatMap hne))

end ReadBack

section Keyed

variable {κ : Type u} {σ : Type v} {ρ : Type w} {β : Type x} (look : σ → κ → β)
  {step : σ → κ × ρ → σ} {rs : List (κ × ρ)}

/-- Records of other keys leave what is stored at a key alone. -/
theorem foldl_frame (hother : ∀ s r k, k ≠ r.1 → look (step s r) k = look s k) {k : κ}
    (hk : k ∉ rs.map Prod.fst) (s : σ) : look (rs.foldl step s) k = look s k := by
  induction rs generalizing s with
  | nil => rfl
  | cons r rs ih =>
      rw [List.map_cons, List.mem_cons, not_or] at hk
      rw [List.foldl_cons, ih hk.2, hother s r k hk.1]

/-- The only record of a key acts on what was stored there before all of them. -/
theorem foldl_once (hother : ∀ s r k, k ≠ r.1 → look (step s r) k = look s k)
    (set : β → ρ → β) (hself : ∀ s r, look (step s r) r.1 = set (look s r.1) r.2)
    (hnodup : (rs.map Prod.fst).Nodup) {r : κ × ρ} (hr : r ∈ rs) (s : σ) :
    look (rs.foldl step s) r.1 = set (look s r.1) r.2 := by
  induction rs generalizing s with
  | nil => cases hr
  | cons r' rs ih =>
      rw [List.map_cons, List.nodup_cons] at hnodup
      rw [List.foldl_cons]
      rcases List.mem_cons.mp hr with rfl | hmem
      · rw [foldl_frame look hother hnodup.1, hself]
      · have hne : r.1 ≠ r'.1 := by
          intro heq
          exact hnodup.1 (heq ▸ List.mem_map_of_mem hmem)
        rw [ih hnodup.2 hmem, hother s r' r.1 hne]

end Keyed

end Difacto.Lib
