import Mathlib.Data.List.Basic
import Mathlib.Data.List.Dedup
import Mathlib.Data.List.Nodup
import Mathlib.Data.Finset.Card

/-!
# Listing a directory

`ObsFileSystem::ListDirectory` of `dmlc-core/src/io/obs_filesys.cc` with `ListObjects` and its
callback. A bucket has objects with keys and no directories: `list_bucket_objects` makes one
entry of all keys that go on after the next `/`. It is code of the SDK and a parameter here:
for a prefix, a marker and `maxkeys` it returns the calls of `list_objects_callback`.

Strings are lists of characters. A failed `CHECK` is `none`.

## Main definitions

* `listing` — the entries for a prefix, in key order.
* `ListBucketObjects.Lists` — what the SDK reports.
* `ObsFileSystem.listObjects`, `ObsFileSystem.listDirectory` — the file system.
* `InDirectory` — an object or a sub-directory directly under a directory.

## Main results

* `mem_listing`, `pairwise_listing` — the entries for a directory are what it holds.
* `ObsFileSystem.listDirectory_complete_iff` — when a directory is listed completely.
-/

namespace Difacto.Io

/-- An object of a bucket: `obs_list_objects_content`. -/
structure Obj where
  key : List Char
  size : ℕ
  deriving DecidableEq

/-- A bucket: objects in key order. -/
structure Bucket where
  objs : List Obj
  sorted : objs.Pairwise fun a b => a.key < b.key

/-- An entry of a listing: an object or a common prefix. -/
inductive Entry
  | content (o : Obj)
  | commonPrefix (p : List Char)
  deriving DecidableEq

/-- What the entries are ordered by. -/
def Entry.name : Entry → List Char
  | content o => o.key
  | commonPrefix p => p

/-- A string up to the first `/`, which is included. -/
def upToSlash : List Char → List Char
  | [] => []
  | c :: cs => if c = '/' then ['/'] else c :: upToSlash cs

/-- The entry that is made of an object whose key begins with `pre`. -/
def entryOf (pre : List Char) (o : Obj) : Entry :=
  if '/' ∈ o.key.drop pre.length then
    .commonPrefix (pre ++ upToSlash (o.key.drop pre.length))
  else .content o

/-- The objects whose keys begin with `pre`. -/
def matching (b : Bucket) (pre : List Char) : List Obj :=
  b.objs.filter fun o => pre.isPrefixOf o.key

/-- The entries for the prefix `pre`. -/
def listing (b : Bucket) (pre : List Char) : List Entry :=
  ((matching b pre).map (entryOf pre)).dedup

/-- The entries after a marker; there is none if the marker is empty. -/
def after (marker : List Char) (es : List Entry) : List Entry :=
  es.filter fun e => marker = [] ∨ marker < e.name

/-- The arguments of a call of `list_objects_callback`. -/
structure ListCall where
  isTruncated : Bool
  nextMarker : List Char
  contents : List Obj
  commonPrefixes : List (List Char)

/-- `list_bucket_objects` with the delimiter `/`. -/
abbrev ListBucketObjects : Type := List Char → List Char → ℕ → List ListCall

/-- The objects among some entries. -/
def contentsOf (es : List Entry) : List Obj :=
  es.filterMap fun e => match e with
    | .content o => some o
    | .commonPrefix _ => none

/-- The common prefixes among some entries. -/
def prefixesOf (es : List Entry) : List (List Char) :=
  es.filterMap fun e => match e with
    | .content _ => none
    | .commonPrefix p => some p

/-- A call reports a part of the entries. -/
structure Reports (truncated : Bool) (call : ListCall) (es : List Entry) : Prop where
  contents : call.contents = contentsOf es
  commonPrefixes : call.commonPrefixes = prefixesOf es
  isTruncated : call.isTruncated = truncated

/-- The SDK reports the first `maxkeys` entries after the marker in key order, in any number of
calls, and says if there are more. -/
def ListBucketObjects.Lists (list : ListBucketObjects) (b : Bucket) : Prop :=
  ∀ pre marker maxkeys, ∃ pieces : List (List Entry),
    pieces.flatten = (after marker (listing b pre)).take maxkeys ∧
    List.Forall₂ (Reports (decide (maxkeys < (after marker (listing b pre)).length)))
      (list pre marker maxkeys) pieces

/-! ## The file system -/

/-- `URI` -/
structure URI where
  protocol : List Char
  host : List Char
  name : List Char
  deriving DecidableEq

/-- `FileType` -/
inductive FileType
  | file
  | directory
  deriving DecidableEq

/-- `FileInfo` -/
structure FileInfo where
  path : URI
  size : ℕ
  type : FileType
  deriving DecidableEq

/-- `list_object_callback_data` -/
structure ListObjectData where
  isTruncated : Bool
  nextMarker : List Char
  keyCount : ℕ
  content : List FileInfo

/-- The file that is reported for an object. -/
def fileOf (o : Obj) : FileInfo :=
  { path := { protocol := [], host := [], name := '/' :: o.key }, size := o.size, type := .file }

/-- The directory that is reported for a common prefix. -/
def directoryOf (p : List Char) : FileInfo :=
  { path := { protocol := [], host := [], name := '/' :: p }, size := 0, type := .directory }

/-- `list_objects_callback` -/
def listObjectsCallback (data : ListObjectData) (call : ListCall) : ListObjectData :=
  -- the marker is the last key if none is given
  let nextMarker :=
    if call.nextMarker = [] then (call.contents.getLast?.map Obj.key).getD [] else call.nextMarker
  { isTruncated := call.isTruncated
    nextMarker := nextMarker.take 1023
    keyCount := data.keyCount + call.contents.length
    content := data.content ++ call.contents.map fileOf ++ call.commonPrefixes.map directoryOf }

/-- `maxkeys` of `ListObjects` -/
def maxkeys : ℕ := 1000

namespace ObsFileSystem

/-- `ListObjects` -/
def listObjects (list : ListBucketObjects) (path : URI) : List FileInfo :=
  let data := (list path.name.tail [] maxkeys).foldl listObjectsCallback
    { isTruncated := false, nextMarker := [], keyCount := 0, content := [] }
  data.content.map fun f =>
    { f with path := { f.path with protocol := path.protocol, host := path.host } }

/-- `ListDirectory` -/
def listDirectory (list : ListBucketObjects) (path : URI) : Option (List FileInfo) :=
  if path.protocol = "obs://".toList then
    if path.name.getLast? = some '/' then some (listObjects list path)
    else
      let pdir := path.name ++ ['/']
      match (listObjects list path).find? fun f =>
          f.path.name = path.name ∨ f.path.name = pdir with
      | none => some []
      | some f =>
        if f.path.name = path.name then
          if f.type = .file then some [f] else none
        else if f.type = .directory then some (listObjects list f.path) else none
  else none

end ObsFileSystem

/-- An entry is directly under the directory `dir`, which ends with `/`. -/
inductive InDirectory (b : Bucket) (dir : List Char) : Entry → Prop
  | object {o : Obj} {rest : List Char} :
      o ∈ b.objs → o.key = dir ++ rest → '/' ∉ rest → InDirectory b dir (.content o)
  | subDirectory {o : Obj} {name rest : List Char} :
      o ∈ b.objs → o.key = dir ++ name ++ '/' :: rest → '/' ∉ name →
      InDirectory b dir (.commonPrefix (dir ++ name ++ ['/']))

/-- How an entry is seen in the bucket `host`. -/
def Entry.info (host : List Char) (e : Entry) : FileInfo :=
  match e with
  | content o =>
    { path := { protocol := "obs://".toList, host, name := '/' :: o.key }
      size := o.size
      type := .file }
  | commonPrefix p =>
    { path := { protocol := "obs://".toList, host, name := '/' :: p }
      size := 0
      type := .directory }

/-! ## Entries -/

theorem upToSlash_append {name : List Char} (hname : '/' ∉ name) (rest : List Char) :
    upToSlash (name ++ '/' :: rest) = name ++ ['/'] := by
  induction name with
  | nil => rfl
  | cons c cs ih =>
      rw [List.mem_cons, not_or] at hname
      rw [List.cons_append, upToSlash, if_neg (Ne.symm hname.1), ih hname.2, List.cons_append]

theorem entryOf_object {pre rest : List Char} {o : Obj} (hkey : o.key = pre ++ rest)
    (hrest : '/' ∉ rest) : entryOf pre o = .content o := by
  rw [entryOf, hkey, List.drop_left, if_neg hrest]

theorem entryOf_subDirectory {pre name rest : List Char} {o : Obj}
    (hkey : o.key = pre ++ name ++ '/' :: rest) (hname : '/' ∉ name) :
    entryOf pre o = .commonPrefix (pre ++ name ++ ['/']) := by
  rw [List.append_assoc] at hkey
  rw [entryOf, hkey, List.drop_left, if_pos (by simp), upToSlash_append hname, List.append_assoc]

variable {b : Bucket} {pre : List Char}

theorem mem_matching {o : Obj} : o ∈ matching b pre ↔ o ∈ b.objs ∧ pre <+: o.key := by
  rw [matching, List.mem_filter, List.isPrefixOf_iff_prefix]

/-- An entry is an object or a common prefix. -/
theorem entryOf_inDirectory {o : Obj} (ho : o ∈ matching b pre) :
    InDirectory b pre (entryOf pre o) := by
  obtain ⟨hmem, rest, hkey⟩ := mem_matching.mp ho
  by_cases hslash : '/' ∈ rest
  · obtain ⟨name, rest', rfl, hname⟩ := List.eq_append_cons_of_mem hslash
    rw [← List.append_assoc] at hkey
    rw [entryOf_subDirectory hkey.symm hname]
    exact .subDirectory hmem hkey.symm hname
  · rw [entryOf_object hkey.symm hslash]
    exact .object hmem hkey.symm hslash

/-- **The entries for a directory** are what is directly under it. -/
theorem mem_listing {e : Entry} : e ∈ listing b pre ↔ InDirectory b pre e := by
  rw [listing, List.mem_dedup, List.mem_map]
  constructor
  · rintro ⟨o, ho, rfl⟩
    exact entryOf_inDirectory ho
  · intro h
    cases h with
    | object hmem hkey hrest =>
        exact ⟨_, mem_matching.mpr ⟨hmem, hkey ▸ List.prefix_append _ _⟩,
          entryOf_object hkey hrest⟩
    | subDirectory hmem hkey hname =>
        refine ⟨_, mem_matching.mpr ⟨hmem, ?_⟩, entryOf_subDirectory hkey hname⟩
        rw [hkey, List.append_assoc]
        exact List.prefix_append _ _

theorem slash_mem_upToSlash {cs : List Char} : '/' ∈ upToSlash cs ↔ '/' ∈ cs := by
  induction cs with
  | nil => rfl
  | cons c cs ih =>
      rw [upToSlash]
      split
      · rename_i hc
        simp [hc]
      · rw [List.mem_cons, List.mem_cons, ih]

theorem upToSlash_of_notMem {cs : List Char} (h : '/' ∉ cs) : upToSlash cs = cs := by
  induction cs with
  | nil => rfl
  | cons c cs ih =>
      rw [List.mem_cons, not_or] at h
      rw [upToSlash, if_neg (Ne.symm h.1), ih h.2]

/-- Strings that are cut after the first `/` keep their order. -/
theorem upToSlash_le {cs ds : List Char} (h : cs < ds) :
    upToSlash cs = upToSlash ds ∨ upToSlash cs < upToSlash ds := by
  induction cs generalizing ds with
  | nil =>
      cases ds with
      | nil => exact absurd h (List.not_lt_nil _)
      | cons d ds =>
          right
          rw [upToSlash, upToSlash]
          split <;> exact List.nil_lt_cons _ _
  | cons c cs ih =>
      cases ds with
      | nil => exact absurd h (List.not_lt_nil _)
      | cons d ds =>
          rcases List.cons_lt_cons_iff.mp h with hlt | ⟨rfl, hlt⟩
          · right
            rw [upToSlash, upToSlash]
            split <;> split <;> rename_i hc hd <;>
              exact List.cons_lt_cons_iff.mpr (.inl (by simpa only [hc, hd] using hlt))
          · by_cases hc : c = '/'
            · left
              rw [upToSlash, upToSlash, if_pos hc, if_pos hc]
            · rw [upToSlash, upToSlash, if_neg hc, if_neg hc]
              rcases ih hlt with heq | hlt'
              · exact .inl (by rw [heq])
              · exact .inr (List.cons_lt_cons_iff.mpr (.inr ⟨rfl, hlt'⟩))

theorem name_entryOf {o : Obj} {rest : List Char} (hkey : o.key = pre ++ rest) :
    (entryOf pre o).name = pre ++ upToSlash rest := by
  rw [entryOf, hkey, List.drop_left]
  split
  · rfl
  · rename_i hslash
    rw [upToSlash_of_notMem hslash]
    exact hkey

theorem lt_of_append_lt {cs ds : List Char} (h : pre ++ cs < pre ++ ds) : cs < ds := by
  induction pre with
  | nil => exact h
  | cons c pre ih => exact ih (List.cons_lt_cons_self.mp h)

/-- The entries are in key order. -/
theorem pairwise_listing : (listing b pre).Pairwise fun e e' => e.name < e'.name := by
  have hobjs : (matching b pre).Pairwise fun o o' =>
      entryOf pre o ≠ entryOf pre o' → (entryOf pre o).name < (entryOf pre o').name := by
    refine (b.sorted.filter _).imp_of_mem fun {o o'} ho ho' hlt hne => ?_
    obtain ⟨-, rest, hkey⟩ := mem_matching.mp ho
    obtain ⟨-, rest', hkey'⟩ := mem_matching.mp ho'
    rw [name_entryOf hkey.symm, name_entryOf hkey'.symm]
    rw [← hkey, ← hkey'] at hlt
    have hrest : rest < rest' := lt_of_append_lt hlt
    rcases upToSlash_le hrest with heq | hlt'
    · -- keys that are cut to the same string make one entry
      exfalso
      apply hne
      have hslash : '/' ∈ rest ↔ '/' ∈ rest' := by
        rw [← slash_mem_upToSlash, heq, slash_mem_upToSlash]
      rw [entryOf, entryOf, ← hkey, ← hkey', List.drop_left, List.drop_left, heq]
      by_cases hmem : '/' ∈ rest
      · rw [if_pos hmem, if_pos (hslash.mp hmem)]
      · rw [upToSlash_of_notMem hmem, upToSlash_of_notMem fun h => hmem (hslash.mpr h)] at heq
        exact absurd (heq ▸ hrest) (List.lt_irrefl _)
    · exact List.append_left_lt hlt'
  have hsub : ((matching b pre).map (entryOf pre)).dedup.Pairwise fun e e' =>
      e ≠ e' → e.name < e'.name :=
    (List.pairwise_map.mpr hobjs).sublist (List.dedup_sublist _)
  exact (hsub.and (List.nodup_dedup _)).imp fun ⟨himp, hne⟩ => himp hne

/-- An object whose key is the prefix itself is the first entry. -/
theorem head?_listing {o : Obj} (ho : o ∈ b.objs) (hkey : o.key = pre) :
    (listing b pre).head? = some (.content o) := by
  have hmem : Entry.content o ∈ listing b pre :=
    mem_listing.mpr (.object ho (by rw [hkey, List.append_nil] : o.key = pre ++ []) (by simp))
  cases hlist : listing b pre with
  | nil =>
      rw [hlist] at hmem
      cases hmem
  | cons e es =>
      rw [hlist] at hmem
      rcases List.mem_cons.mp hmem with rfl | htail
      · rfl
      · -- no key that begins with the prefix comes before it
        have hsorted : (e :: es).Pairwise fun e e' => e.name < e'.name := by
          rw [← hlist]
          exact pairwise_listing
        have hlt : e.name < pre := by
          rw [← hkey]
          exact (List.pairwise_cons.mp hsorted).1 _ htail
        have hpre : pre <+: e.name := by
          have hin : InDirectory b pre e := mem_listing.mp (by rw [hlist]; simp)
          cases hin with
          | @object o' rest _ hk _ =>
              show pre <+: o'.key
              rw [hk]
              exact List.prefix_append _ _
          | @subDirectory _ name _ _ _ _ =>
              show pre <+: pre ++ name ++ ['/']
              rw [List.append_assoc]
              exact List.prefix_append _ _
        exact absurd hlt (List.not_lt.mpr hpre.le)

/-! ## What is reported -/

theorem Entry.info_injective (host : List Char) : Function.Injective (Entry.info host) := by
  intro e e' h
  have hname := congrArg (fun info => info.path.name) h
  have hsize := congrArg FileInfo.size h
  have htype := congrArg FileInfo.type h
  cases e with
  | content o =>
      cases e' with
      | content o' =>
          obtain ⟨k, n⟩ := o
          obtain ⟨k', n'⟩ := o'
          obtain rfl : k = k' := (List.cons.inj hname).2
          obtain rfl : n = n' := hsize
          rfl
      | commonPrefix p => exact absurd htype FileType.noConfusion
  | commonPrefix p =>
      cases e' with
      | content o => exact absurd htype FileType.noConfusion
      | commonPrefix p' =>
          obtain rfl : p = p' := (List.cons.inj hname).2
          rfl

/-- The files and directories of some entries, the files first. -/
def infos (host : List Char) (es : List Entry) : List FileInfo :=
  (contentsOf es).map (fun o => (Entry.content o).info host) ++
    (prefixesOf es).map fun p => (Entry.commonPrefix p).info host

theorem perm_infos (host : List Char) (es : List Entry) :
    (infos host es).Perm (es.map (Entry.info host)) := by
  induction es with
  | nil => rfl
  | cons e es ih =>
      cases e with
      | content o => exact ih.cons _
      | commonPrefix p => exact List.perm_middle.trans (ih.cons _)

namespace ObsFileSystem

variable {list : ListBucketObjects}

/-- The callback appends the files and directories of each call. -/
theorem foldl_listObjectsCallback {truncated : Bool} {calls : List ListCall}
    {pieces : List (List Entry)} (h : List.Forall₂ (Reports truncated) calls pieces)
    (data : ListObjectData) : (calls.foldl listObjectsCallback data).content =
      data.content ++ pieces.flatMap fun es =>
        (contentsOf es).map fileOf ++ (prefixesOf es).map directoryOf := by
  induction h generalizing data with
  | nil => simp
  | cons hcall _ ih =>
      rw [List.foldl_cons, ih, List.flatMap_cons, listObjectsCallback, hcall.contents,
        hcall.commonPrefixes]
      simp only [List.append_assoc]

/-- The URI of a key. -/
def uri (host key : List Char) : URI :=
  { protocol := "obs://".toList, host, name := '/' :: key }

theorem protocol_uri (host key : List Char) : (uri host key).protocol = "obs://".toList := rfl

theorem name_uri (host key : List Char) : (uri host key).name = '/' :: key := rfl

/-- **One request is made**: what is returned are the first 1000 entries. -/
theorem listObjects_eq (hlist : list.Lists b) (host key : List Char) :
    ∃ pieces : List (List Entry), pieces.flatten = (listing b key).take maxkeys ∧
      listObjects list (uri host key) = pieces.flatMap (infos host) := by
  obtain ⟨pieces, hflat, hcalls⟩ := hlist key [] maxkeys
  have hafter : after [] (listing b key) = listing b key := by simp [after]
  rw [hafter] at hflat
  refine ⟨pieces, hflat, ?_⟩
  rw [listObjects]
  simp only [name_uri, List.tail_cons, foldl_listObjectsCallback hcalls, List.nil_append,
    List.map_flatMap]
  congr 1
  funext es
  rw [List.map_append, List.map_map, List.map_map, infos]
  rfl

theorem perm_listObjects (hlist : list.Lists b) (host key : List Char) :
    (listObjects list (uri host key)).Perm
      (((listing b key).take maxkeys).map (Entry.info host)) := by
  obtain ⟨pieces, hflat, hobjs⟩ := listObjects_eq hlist host key
  rw [hobjs, ← hflat, List.map_flatten, ← List.flatMap_def]
  exact List.Perm.flatMap_left _ fun es _ => perm_infos host es

/-- An entry is returned once if it is among the first 1000, and not at all otherwise. -/
theorem count_listObjects (hlist : list.Lists b) (host key : List Char) (e : Entry) :
    (listObjects list (uri host key)).count (e.info host) =
      if e ∈ (listing b key).take maxkeys then 1 else 0 := by
  rw [(perm_listObjects hlist host key).count_eq,
    List.count_map_of_injective _ _ (Entry.info_injective host)]
  have hnodup : ((listing b key).take maxkeys).Nodup :=
    (List.nodup_dedup _).sublist (List.take_sublist _ _)
  split
  · rename_i hmem
    exact List.count_eq_one_of_mem hnodup hmem
  · rename_i hmem
    exact List.count_eq_zero_of_not_mem hmem

/-- All entries for a prefix are returned if and only if there are at most 1000. -/
theorem listObjects_complete_iff (hlist : list.Lists b) (host key : List Char) :
    (∀ e, InDirectory b key e → (listObjects list (uri host key)).count (e.info host) = 1) ↔
      (listing b key).length ≤ maxkeys := by
  constructor
  · intro hall
    have hsub : listing b key ⊆ (listing b key).take maxkeys := by
      intro e he
      have hcount := hall e (mem_listing.mp he)
      rw [count_listObjects hlist] at hcount
      by_contra hnot
      rw [if_neg hnot] at hcount
      cases hcount
    have hlen := ((List.nodup_dedup _).subperm hsub).length_le
    exact hlen.trans (List.length_take_le _ _)
  · intro hlen e he
    rw [count_listObjects hlist, List.take_of_length_le hlen, if_pos (mem_listing.mpr he)]

/-! ## Paths without a slash at the end -/

/-- The entry for the path itself is an object. -/
theorem InDirectory.of_name_eq {key : List Char} {e : Entry} (h : InDirectory b key e)
    (hname : e.name = key) : ∃ o ∈ b.objs, o.key = key ∧ e = .content o := by
  cases h with
  | object hmem _ _ => exact ⟨_, hmem, hname, rfl⟩
  | subDirectory _ _ _ =>
      have hlen := congrArg List.length hname
      simp only [Entry.name, List.length_append, List.length_singleton] at hlen
      omega

/-- The entry with a further slash is a common prefix. -/
theorem InDirectory.of_name_eq_slash {key : List Char} {e : Entry} (h : InDirectory b key e)
    (hname : e.name = key ++ ['/']) : e = .commonPrefix (key ++ ['/']) := by
  cases h with
  | object _ hkey hrest =>
      have hslash := List.append_cancel_left (hkey.symm.trans hname)
      rw [hslash] at hrest
      exact absurd (List.mem_singleton_self '/') hrest
  | subDirectory _ _ _ => exact congrArg Entry.commonPrefix hname

/-- The condition of the loop in `ListDirectory`. -/
def isPath (key : List Char) (f : FileInfo) : Bool :=
  f.path.name = '/' :: key ∨ f.path.name = '/' :: key ++ ['/']

theorem name_info (host : List Char) (e : Entry) : (e.info host).path.name = '/' :: e.name := by
  cases e <;> rfl

theorem isPath_info {host key : List Char} {e : Entry} :
    isPath key (e.info host) ↔ e.name = key ∨ e.name = key ++ ['/'] := by
  simp [isPath, name_info]

theorem find?_of_unique {α : Type} [DecidableEq α] {p : α → Bool} {x : α} (hx : p x = true)
    (l : List α) (h : ∀ y ∈ l, p y = true → y = x) :
    l.find? p = if x ∈ l then some x else none := by
  split
  · rename_i hmem
    cases hfind : l.find? p with
    | none => exact absurd hx (by simpa using List.find?_eq_none.mp hfind x hmem)
    | some y => rw [h y (List.mem_of_find?_eq_some hfind) (List.find?_some hfind)]
  · rename_i hmem
    rw [List.find?_eq_none]
    intro y hy hpy
    exact hmem (h y hy hpy ▸ hy)

/-- Without an object at the path, the loop finds the directory if it is among the first 1000
entries. -/
theorem find?_directory (hlist : list.Lists b) (host key : List Char)
    (hno : ∀ o ∈ b.objs, o.key ≠ key) :
    (listObjects list (uri host key)).find? (isPath key) =
      if .commonPrefix (key ++ ['/']) ∈ (listing b key).take maxkeys then
        some ((Entry.commonPrefix (key ++ ['/'])).info host)
      else none := by
  have hperm := perm_listObjects hlist host key
  have hpath : isPath key ((Entry.commonPrefix (key ++ ['/'])).info host) = true :=
    isPath_info.mpr (.inr rfl)
  have hunique : ∀ f ∈ listObjects list (uri host key), isPath key f = true →
      f = (Entry.commonPrefix (key ++ ['/'])).info host := by
    intro f hf hpath
    obtain ⟨e, he, rfl⟩ := List.mem_map.mp (hperm.mem_iff.mp hf)
    have hin := mem_listing.mp (List.mem_of_mem_take he)
    rcases isPath_info.mp hpath with hname | hname
    · obtain ⟨o, ho, hkey, -⟩ := InDirectory.of_name_eq hin hname
      exact absurd hkey (hno o ho)
    · rw [InDirectory.of_name_eq_slash hin hname]
  rw [find?_of_unique hpath _ hunique]
  simp only [hperm.mem_iff, List.mem_map_of_injective (Entry.info_injective host)]

/-- An object at the path is the first that is returned. -/
theorem head?_listObjects (hlist : list.Lists b) (host : List Char) {o : Obj} (ho : o ∈ b.objs) :
    (listObjects list (uri host o.key)).head? = some ((Entry.content o).info host) := by
  obtain ⟨pieces, hflat, hobjs⟩ := listObjects_eq hlist host o.key
  have hhead : pieces.flatten.head? = some (.content o) := by
    rw [hflat, List.head?_take, if_neg (by decide), head?_listing ho rfl]
  rw [hobjs]
  clear hflat hobjs
  induction pieces with
  | nil => cases hhead
  | cons es pieces ih =>
      cases es with
      | nil => exact ih hhead
      | cons e es =>
          obtain rfl : e = .content o := Option.some.inj hhead
          rfl

/-- The directory that a path stands for. -/
def dirOf (key : List Char) : List Char :=
  if ('/' :: key).getLast? = some '/' then key else key ++ ['/']

/-- A directory that one request can list; without a slash at the end, there is no object at
the path itself, and the directory is among the first 1000 entries for the path. -/
def Listable (b : Bucket) (key : List Char) : Prop :=
  if ('/' :: key).getLast? = some '/' then (listing b key).length ≤ maxkeys
  else listing b (key ++ ['/']) = [] ∨
    (∀ o ∈ b.objs, o.key ≠ key) ∧
      .commonPrefix (key ++ ['/']) ∈ (listing b key).take maxkeys ∧
      (listing b (key ++ ['/'])).length ≤ maxkeys

/-- With a slash at the end, the entries for the path are returned. -/
theorem listDirectory_slash {host key : List Char} (hslash : ('/' :: key).getLast? = some '/') :
    listDirectory list (uri host key) = some (listObjects list (uri host key)) := by
  rw [listDirectory, if_pos (protocol_uri host key), name_uri, if_pos hslash]

/-- Without one, the path is looked up first. -/
theorem listDirectory_noSlash {host key : List Char}
    (hslash : ('/' :: key).getLast? ≠ some '/') :
    listDirectory list (uri host key) =
      match (listObjects list (uri host key)).find? (isPath key) with
      | none => some []
      | some f =>
        if f.path.name = '/' :: key then
          if f.type = .file then some [f] else none
        else if f.type = .directory then some (listObjects list f.path) else none := by
  rw [listDirectory, if_pos (protocol_uri host key), name_uri, if_neg hslash]
  rfl

/-- If there is an object at the path, only this object is returned. -/
theorem listDirectory_object (hlist : list.Lists b) (host : List Char) {o : Obj}
    (ho : o ∈ b.objs) (hslash : ('/' :: o.key).getLast? ≠ some '/') :
    listDirectory list (uri host o.key) = some [(Entry.content o).info host] := by
  have hpath : isPath o.key ((Entry.content o).info host) = true := isPath_info.mpr (.inl rfl)
  obtain ⟨fs, hfs⟩ := List.head?_eq_some_iff.mp (head?_listObjects hlist host ho)
  have hname := name_info host (.content o)
  have htype : ((Entry.content o).info host).type = .file := rfl
  rw [listDirectory_noSlash hslash, hfs, List.find?_cons_of_pos hpath]
  simp only [hname, htype, Entry.name, if_true]

/-- If there is none, the directory is listed if it was found. -/
theorem listDirectory_directory (hlist : list.Lists b) (host key : List Char)
    (hno : ∀ o ∈ b.objs, o.key ≠ key) (hslash : ('/' :: key).getLast? ≠ some '/') :
    listDirectory list (uri host key) =
      some (if .commonPrefix (key ++ ['/']) ∈ (listing b key).take maxkeys then
        listObjects list (uri host (key ++ ['/'])) else []) := by
  have hname : ¬ ((Entry.commonPrefix (key ++ ['/'])).info host).path.name = '/' :: key := by
    intro heq
    rw [name_info] at heq
    have hlen := congrArg List.length heq
    simp [Entry.name] at hlen
  rw [listDirectory_noSlash hslash, find?_directory hlist host key hno]
  split
  · rename_i hfind
    split at hfind
    · cases hfind
    · rename_i hmem
      rw [if_neg hmem]
  · rename_i f hfind
    split at hfind
    · rename_i hmem
      obtain rfl := Option.some.inj hfind
      rw [if_neg hname, if_pos hmem]
      rfl
    · cases hfind

/-- **When a directory is listed completely.** -/
theorem listDirectory_complete_iff (hlist : list.Lists b) (host key : List Char) :
    (∃ out, listDirectory list (uri host key) = some out ∧
      ∀ e, InDirectory b (dirOf key) e → out.count (e.info host) = 1) ↔ Listable b key := by
  by_cases hslash : ('/' :: key).getLast? = some '/'
  · rw [Listable, if_pos hslash, dirOf, if_pos hslash, ← listObjects_complete_iff hlist host key,
      listDirectory_slash hslash]
    simp only [Option.some.injEq, exists_eq_left']
  · have hnil : listing b (key ++ ['/']) = [] ↔ ∀ e, ¬ InDirectory b (key ++ ['/']) e := by
      simp only [List.eq_nil_iff_forall_not_mem, mem_listing]
    rw [Listable, if_neg hslash, dirOf, if_neg hslash]
    by_cases hobj : ∃ o ∈ b.objs, o.key = key
    · -- the object is returned, and nothing of the directory
      obtain ⟨o, ho, rfl⟩ := hobj
      rw [listDirectory_object hlist host ho hslash, or_iff_left fun h => h.1 o ho rfl, hnil]
      simp only [Option.some.injEq, exists_eq_left']
      constructor
      · intro hall e he
        have hmem : e.info host ∈ [(Entry.content o).info host] := by
          rw [← List.count_pos_iff, hall e he]
          exact Nat.one_pos
        rw [Entry.info_injective host (List.mem_singleton.mp hmem)] at he
        cases he with
        | object _ hkey _ =>
            have hlen := congrArg List.length hkey
            simp only [List.length_append, List.length_singleton] at hlen
            omega
      · intro hall e he
        exact absurd he (hall e)
    · have hno : ∀ o ∈ b.objs, o.key ≠ key := fun o ho hkey => hobj ⟨o, ho, hkey⟩
      rw [listDirectory_directory hlist host key hno hslash, and_iff_right hno]
      simp only [Option.some.injEq, exists_eq_left']
      by_cases hmem : .commonPrefix (key ++ ['/']) ∈ (listing b key).take maxkeys
      · rw [if_pos hmem, and_iff_right hmem, listObjects_complete_iff hlist]
        constructor
        · exact .inr
        · rintro (hempty | hlen)
          · rw [hempty]
            exact Nat.zero_le _
          · exact hlen
      · rw [if_neg hmem, or_iff_left fun h => hmem h.1, hnil]
        simp only [List.count_nil]
        exact forall_congr' fun e => imp_congr_right fun _ => by simp

/-- A service that reports all entries in one call. -/
def oneCall (b : Bucket) : ListBucketObjects := fun pre marker n =>
  [{ isTruncated := decide (n < (after marker (listing b pre)).length)
     nextMarker := []
     contents := contentsOf ((after marker (listing b pre)).take n)
     commonPrefixes := prefixesOf ((after marker (listing b pre)).take n) }]

theorem oneCall_lists (b : Bucket) : (oneCall b).Lists b := by
  intro pre marker n
  exact ⟨[(after marker (listing b pre)).take n], by simp, .cons ⟨rfl, rfl, rfl⟩ .nil⟩

/-- The directory `d` with two files and a sub-directory, and a file with a similar name. -/
def smallBucket : Bucket where
  objs := [⟨['d', '-'], 7⟩, ⟨['d', '/', 'a'], 5⟩, ⟨['d', '/', 'b'], 6⟩,
    ⟨['d', '/', 'c', '/', 'a'], 5⟩]
  sorted := by decide

theorem complete_smallBucket : ∃ out,
    listDirectory (oneCall smallBucket) (uri [] ['d']) = some out ∧
      ∀ e, InDirectory smallBucket ['d', '/'] e → out.count (e.info []) = 1 := by
  have hdir : dirOf ['d'] = ['d', '/'] := by decide
  have hlistable : Listable smallBucket ['d'] := by
    rw [Listable, if_neg (by decide)]
    exact .inr ⟨by decide, by decide, by decide⟩
  rw [← hdir]
  exact (listDirectory_complete_iff (oneCall_lists smallBucket) [] ['d']).mpr hlistable

/-- A directory with the files `a`, `aa`, `aaa` and so on. -/
def manyFiles (n : ℕ) : Bucket where
  objs := (List.range n).map fun i => ⟨['d', '/'] ++ List.replicate (i + 1) 'a', 1⟩
  sorted := by
    rw [List.pairwise_map]
    refine List.pairwise_lt_range.imp fun {i j} hij => List.append_left_lt ?_
    obtain ⟨k, hk⟩ : ∃ k, j + 1 = (i + 1) + (k + 1) := ⟨j - i - 1, by omega⟩
    have hlt : List.replicate (i + 1) 'a' ++ [] <
        List.replicate (i + 1) 'a' ++ List.replicate (k + 1) 'a' :=
      List.append_left_lt (List.nil_lt_cons _ _)
    rwa [List.append_nil, List.replicate_append_replicate, ← hk] at hlt

theorem length_listing_manyFiles (n : ℕ) : (listing (manyFiles n) ['d', '/']).length = n := by
  have hmatch : matching (manyFiles n) ['d', '/'] = (manyFiles n).objs := by
    rw [matching, List.filter_eq_self]
    intro o ho
    obtain ⟨i, -, rfl⟩ := List.mem_map.mp ho
    exact List.isPrefixOf_iff_prefix.mpr (List.prefix_append _ _)
  have hentry : (manyFiles n).objs.map (entryOf ['d', '/']) =
      (manyFiles n).objs.map Entry.content := by
    apply List.map_congr_left
    intro o ho
    obtain ⟨i, -, rfl⟩ := List.mem_map.mp ho
    exact entryOf_object rfl fun h => absurd (List.eq_of_mem_replicate h) (by decide)
  have hnodup : ((manyFiles n).objs.map Entry.content).Nodup := by
    refine List.Nodup.map (fun _ _ h => Entry.content.inj h) ?_
    refine (manyFiles n).sorted.imp ?_
    rintro o _ hlt rfl
    exact List.lt_irrefl _ hlt
  rw [listing, hmatch, hentry, List.dedup_eq_self.mpr hnodup, List.length_map, manyFiles,
    List.length_map, List.length_range]

/-- **One file too many**: of 1001 files in a directory one is not listed. -/
theorem manyFiles_incomplete : (oneCall (manyFiles 1001)).Lists (manyFiles 1001) ∧
    ¬ ∃ out, listDirectory (oneCall (manyFiles 1001)) (uri [] ['d', '/']) = some out ∧
      ∀ e, InDirectory (manyFiles 1001) ['d', '/'] e → out.count (e.info []) = 1 := by
  have hlist := oneCall_lists (manyFiles 1001)
  refine ⟨hlist, ?_⟩
  rintro ⟨out, hout, hall⟩
  rw [listDirectory_slash (by decide), Option.some.injEq] at hout
  rw [← hout] at hall
  have hlen := (listObjects_complete_iff hlist [] ['d', '/']).mp hall
  rw [length_listing_manyFiles] at hlen
  exact absurd hlen (by decide)

end ObsFileSystem

end Difacto.Io
