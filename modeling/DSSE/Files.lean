import DSSE.ClientStorage
import DSSE.Schemes.Numbering

/-! The files that a client indexes: `tokenize`, and how SetupFiles numbers the file names and builds the
    posting lists. `files` says what each readable file holds; contents do not change meanwhile. -/

namespace DSSE
open Schemes Std

/-- The loop `while (fin >> str)`. -/
def tokenizeLoop : ℕ → IStream → Revlist → Revlist
  | 0, _, tokenSet => tokenSet
  | fuel + 1, st, tokenSet =>
    match st.getWord with
    | (some str, st) => tokenizeLoop fuel st (tokenSet.insert str)
    | (none, _) => tokenSet

/-- The words of a file, in order and without repeats; `none` where the file cannot be opened. -/
def tokenize (file : Option Bytes) : Option (List Bytes) :=
  file.map fun text => (tokenizeLoop (text.length + 1) (.ofBytes text) ∅).toList

/-- The variables of SetupFiles. -/
structure Indexing where
  filenameToFileid : ExtTreeMap Bytes UInt64 compare
  fileidToFilename : FileidMap
  fileids : Postings
  allTokens : List Bytes
  lastFileid : UInt64

def Indexing.start : Indexing := ⟨∅, ∅, ∅, [], 1⟩

/-- Allocate a fileid if this is a new filename. -/
def Indexing.allocate (ix : Indexing) (filename : Bytes) : Indexing :=
  if ix.filenameToFileid.contains filename then ix
  else { ix with
    filenameToFileid := ix.filenameToFileid.insert filename ix.lastFileid
    fileidToFilename := ix.fileidToFilename.insert ix.lastFileid filename
    lastFileid := ix.lastFileid + 1 }

/-- Add the word to the tokens if it is a new one, and the id to its posting list. -/
def Indexing.word (fileid : UInt64) (ix : Indexing) (word : Bytes) : Indexing :=
  { ix with
    allTokens := if ix.fileids.contains word then ix.allTokens else ix.allTokens ++ [word]
    fileids := ix.fileids.insert word (ix.fileids.getD word [] ++ [fileid]) }

/-- One file of the list; a file that cannot be read is skipped. -/
def Indexing.file (files : Bytes → Option Bytes) (ix : Indexing) (filename : Bytes) : Indexing :=
  match tokenize (files filename) with
  | none => ix
  | some fileTokens =>
    let ix := ix.allocate filename
    let fileid := ix.filenameToFileid.getD filename 0  -- `at`, the name is there
    fileTokens.foldl (Indexing.word fileid) ix

/-- The loop of SetupFiles. -/
def indexFiles (files : Bytes → Option Bytes) (filenames : List Bytes) : Indexing :=
  filenames.foldl (Indexing.file files) .start

/-! ### What the index should be -/

/-- The tokens of a file, none if it cannot be read. -/
def tokensOf (files : Bytes → Option Bytes) (filename : Bytes) : List Bytes :=
  (tokenize (files filename)).getD []

/-- The names in the list whose files can be read. -/
def readable (files : Bytes → Option Bytes) (filenames : List Bytes) : List Bytes :=
  filenames.filter fun filename => (files filename).isSome

/-- Names are numbered from 1 on, in the order in which they first occur. -/
def idOf (filenames : List Bytes) (filename : Bytes) : UInt64 :=
  UInt64.ofNat (number filenames filename + 1)

/-- An exact inverted index of the readable files among `filenames`. -/
structure Indexing.Exact (files : Bytes → Option Bytes) (filenames : List Bytes) (ix : Indexing) :
    Prop where
  tokens_nodup : ix.allTokens.Nodup
  tokens : ∀ w, w ∈ ix.allTokens ↔ w ∈ ix.fileids
  posted_nodup : ∀ w, (ix.fileids.getD w []).Nodup
  posted : ∀ w id, id ∈ ix.fileids.getD w [] ↔
    ∃ filename ∈ readable files filenames, w ∈ tokensOf files filename ∧
      idOf (readable files filenames) filename = id
  numbered : ∀ filename : Bytes, ix.filenameToFileid[filename]? =
    if filename ∈ readable files filenames then some (idOf (readable files filenames) filename)
    else none
  injective : ∀ filename ∈ readable files filenames, ∀ filename' ∈ readable files filenames,
    idOf (readable files filenames) filename = idOf (readable files filenames) filename' →
      filename = filename'
  inverse : ∀ (id : UInt64) (filename : Bytes), ix.fileidToFilename[id]? = some filename ↔
    filename ∈ readable files filenames ∧ idOf (readable files filenames) filename = id
  last : ix.lastFileid = UInt64.ofNat ((firsts (readable files filenames)).length + 1)

/-! ### What SetupFiles builds -/

theorem tokenize_nodup {file : Option Bytes} {tokens : List Bytes} (h : tokenize file = some tokens) :
    tokens.Nodup := by
  obtain ⟨text, -, rfl⟩ := Option.map_eq_some_iff.mp h
  refine ExtTreeSet.distinct_toList.imp fun hne heq => ?_
  rw [heq] at hne
  exact hne (LawfulEqCmp.compare_eq_iff_eq.mpr rfl)

/-- The occurrences of a word: the ids of the listed names whose files have it, repeats and all. -/
def occurrences (files : Bytes → Option Bytes) (filenames : List Bytes) (w : Bytes) : List UInt64 :=
  ((readable files filenames).filter fun filename => w ∈ tokensOf files filename).map
    (idOf (readable files filenames))

/-- What the loop has built when it has seen `done`. -/
structure Indexing.Built (files : Bytes → Option Bytes) (done : List Bytes) (ix : Indexing) : Prop where
  tokens_nodup : ix.allTokens.Nodup
  tokens : ∀ w, w ∈ ix.allTokens ↔ w ∈ ix.fileids
  posted : ∀ w : Bytes, ix.fileids[w]? =
    if occurrences files done w = [] then none else some (occurrences files done w)
  numbered : ∀ filename : Bytes, ix.filenameToFileid[filename]? =
    if filename ∈ readable files done then some (idOf (readable files done) filename) else none
  inverse : ∀ (id : UInt64) (filename : Bytes), ix.fileidToFilename[id]? = some filename ↔
    filename ∈ readable files done ∧ idOf (readable files done) filename = id
  last : ix.lastFileid = UInt64.ofNat ((firsts (readable files done)).length + 1)

theorem readable_concat (files : Bytes → Option Bytes) (done : List Bytes) (filename : Bytes) :
    readable files (done ++ [filename]) =
      if (files filename).isSome then readable files done ++ [filename] else readable files done := by
  rw [readable, List.filter_append]
  cases hf : (files filename).isSome <;> simp [hf, readable]

/-- The words of one file: each gets the id at the end of its list. -/
theorem Indexing.words_spec (fileid : UInt64) (words : List Bytes) : ∀ (ix : Indexing), words.Nodup →
    ix.allTokens.Nodup → (∀ w, w ∈ ix.allTokens ↔ w ∈ ix.fileids) →
    let ix' := words.foldl (Indexing.word fileid) ix
    ix'.filenameToFileid = ix.filenameToFileid ∧ ix'.fileidToFilename = ix.fileidToFilename ∧
      ix'.lastFileid = ix.lastFileid ∧ ix'.allTokens.Nodup ∧
      (∀ w, w ∈ ix'.allTokens ↔ w ∈ ix'.fileids) ∧
      ∀ w : Bytes, ix'.fileids[w]? =
        if w ∈ words then some (ix.fileids.getD w [] ++ [fileid]) else ix.fileids[w]? := by
  induction words with
  | nil =>
    intro ix _ hnodup htokens
    exact ⟨rfl, rfl, rfl, hnodup, htokens, fun w => by simp⟩
  | cons u words ih =>
    intro ix hwords hnodup htokens
    obtain ⟨hu, hwords⟩ := List.nodup_cons.mp hwords
    have hnodup' : (ix.word fileid u).allTokens.Nodup := by
      rw [Indexing.word]
      simp only
      split
      · exact hnodup
      · rename_i hnot
        rw [List.nodup_append]
        refine ⟨hnodup, List.nodup_singleton u, fun a ha b hb heq => hnot ?_⟩
        rw [ExtTreeMap.contains_iff_mem, ← htokens, ← List.mem_singleton.mp hb, ← heq]
        exact ha
    have htokens' : ∀ w, w ∈ (ix.word fileid u).allTokens ↔ w ∈ (ix.word fileid u).fileids := by
      intro w
      rw [Indexing.word]
      simp only [ExtTreeMap.mem_insert, LawfulEqCmp.compare_eq_iff_eq]
      split
      · rename_i hmem
        rw [htokens]
        refine (or_iff_right_of_imp ?_).symm
        rintro rfl
        exact ExtTreeMap.contains_iff_mem.mp hmem
      · rw [List.mem_append, List.mem_singleton, htokens, or_comm, eq_comm]
    obtain ⟨hids, hnames, hlast, hn, ht, hget⟩ := ih (ix.word fileid u) hwords hnodup' htokens'
    refine ⟨hids, hnames, hlast, hn, ht, fun w => ?_⟩
    have hword : (ix.word fileid u).fileids[w]? =
        if u = w then some (ix.fileids.getD u [] ++ [fileid]) else ix.fileids[w]? := by
      rw [Indexing.word]
      simp only [ExtTreeMap.getElem?_insert, LawfulEqCmp.compare_eq_iff_eq]
    rw [List.foldl_cons, hget, ExtTreeMap.getD_eq_getD_getElem?, hword]
    rcases eq_or_ne u w with rfl | hne
    · simp [hu]
    · simp [hne, hne.symm, ExtTreeMap.getD_eq_getD_getElem?]

theorem idOf_concat_of_mem {l : List Bytes} {filename : Bytes} (h : filename ∈ l) (m : Bytes) :
    idOf (l ++ [m]) filename = idOf l filename := by
  rw [idOf, number_concat_of_mem h, idOf]

theorem idOf_toNat {l : List Bytes} (hl : l.length + 1 < 2 ^ 64) {filename : Bytes}
    (h : filename ∈ l) : (idOf l filename).toNat = number l filename + 1 := by
  have hlt := number_lt h
  have hle := length_firsts_le l
  rw [idOf, UInt64.toNat_ofNat_of_lt']
  show number l filename + 1 < 2 ^ 64
  omega

theorem idOf_inj {l : List Bytes} (hl : l.length + 1 < 2 ^ 64) {filename filename' : Bytes}
    (h : filename ∈ l) (h' : filename' ∈ l) (heq : idOf l filename = idOf l filename') :
    filename = filename' := by
  have hnat := congrArg UInt64.toNat heq
  rw [idOf_toNat hl h, idOf_toNat hl h'] at hnat
  exact number_inj h (by omega)

/-- The names in `r` have their numbers, in both maps, and the last one is used up. -/
structure Indexing.Numbers (r : List Bytes) (ix : Indexing) : Prop where
  numbered : ∀ name : Bytes, ix.filenameToFileid[name]? = if name ∈ r then some (idOf r name) else none
  inverse : ∀ (id : UInt64) (name : Bytes), ix.fileidToFilename[id]? = some name ↔
    name ∈ r ∧ idOf r name = id
  last : ix.lastFileid = UInt64.ofNat ((firsts r).length + 1)

/-- A name that has its number already keeps it. -/
theorem Indexing.Numbers.again {r : List Bytes} {ix : Indexing} (h : ix.Numbers r) {filename : Bytes}
    (hold : filename ∈ r) : (ix.allocate filename).Numbers (r ++ [filename]) := by
  have hcontains : ix.filenameToFileid.contains filename = true := by
    rw [ExtTreeMap.contains_iff_mem, ExtTreeMap.mem_iff_isSome_getElem?, h.numbered, if_pos hold]
    rfl
  have hfirsts : firsts (r ++ [filename]) = firsts r := by
    rw [firsts_concat, if_pos (mem_firsts.mpr hold)]
  have hmem : ∀ name, name ∈ r ++ [filename] ↔ name ∈ r := by
    intro name
    rw [List.mem_append, List.mem_singleton]
    exact or_iff_left_of_imp fun heq => heq ▸ hold
  have hid : ∀ name, idOf (r ++ [filename]) name = idOf r name := by
    intro name
    rw [idOf, idOf, number, number, hfirsts]
  rw [Indexing.allocate, if_pos hcontains]
  refine ⟨?_, ?_, ?_⟩
  · simpa only [hmem, hid] using h.numbered
  · simpa only [hmem, hid] using h.inverse
  · rw [hfirsts]
    exact h.last

/-- A new name gets the next number. -/
theorem Indexing.Numbers.next {r : List Bytes} {ix : Indexing} (h : ix.Numbers r) {filename : Bytes}
    (hnew : filename ∉ r) (hlen : (r ++ [filename]).length + 1 < 2 ^ 64) :
    (ix.allocate filename).Numbers (r ++ [filename]) := by
  have hcontains : ¬ ix.filenameToFileid.contains filename = true := by
    rw [ExtTreeMap.contains_iff_mem, ExtTreeMap.mem_iff_isSome_getElem?, h.numbered, if_neg hnew]
    simp
  have hfirsts : firsts (r ++ [filename]) = firsts r ++ [filename] := by
    rw [firsts_concat, if_neg fun hm => hnew (mem_firsts.mp hm)]
  have hself : idOf (r ++ [filename]) filename = ix.lastFileid := by
    rw [idOf, number_concat_self hnew, h.last]
  have hid : ∀ name ∈ r, idOf (r ++ [filename]) name = idOf r name :=
    fun name hname => idOf_concat_of_mem hname filename
  have hmem : ∀ name, name ∈ r ++ [filename] ↔ name ∈ r ∨ name = filename := by
    intro name
    rw [List.mem_append, List.mem_singleton]
  have hlast : filename ∈ r ++ [filename] := (hmem filename).mpr (Or.inr rfl)
  rw [Indexing.allocate, if_neg hcontains]
  refine ⟨fun name => ?_, fun id name => ?_, ?_⟩
  · simp only [ExtTreeMap.getElem?_insert, LawfulEqCmp.compare_eq_iff_eq]
    rcases eq_or_ne filename name with rfl | hne
    · rw [if_pos rfl, if_pos hlast, hself]
    · rw [if_neg hne, h.numbered]
      by_cases hname : name ∈ r
      · rw [if_pos hname, if_pos ((hmem name).mpr (Or.inl hname)), hid name hname]
      · have hnot : name ∉ r ++ [filename] :=
          fun hm => ((hmem name).mp hm).elim hname fun heq => hne heq.symm
        rw [if_neg hname, if_neg hnot]
  · simp only [ExtTreeMap.getElem?_insert, LawfulEqCmp.compare_eq_iff_eq]
    rcases eq_or_ne ix.lastFileid id with rfl | hne
    · rw [if_pos rfl, Option.some.injEq]
      constructor
      · rintro rfl
        exact ⟨hlast, hself⟩
      · rintro ⟨hname, heq⟩
        exact idOf_inj hlen hlast hname (hself.trans heq.symm)
    · rw [if_neg hne, h.inverse]
      constructor
      · rintro ⟨hname, heq⟩
        exact ⟨(hmem name).mpr (Or.inl hname), (hid name hname).trans heq⟩
      · rintro ⟨hname, heq⟩
        rcases (hmem name).mp hname with hname | rfl
        · exact ⟨hname, (hid name hname).symm.trans heq⟩
        · exact absurd (hself.symm.trans heq) hne
  · show ix.lastFileid + 1 = _
    rw [h.last, hfirsts, List.length_append, List.length_singleton,
      UInt64.ofNat_add ((firsts r).length + 1) 1]
    rfl

/-- Whether the name is new or not, afterwards it has its number and all is as before for the others. -/
theorem Indexing.Built.allocate {files : Bytes → Option Bytes} {done : List Bytes} {ix : Indexing}
    (h : ix.Built files done) {filename : Bytes} (hf : (files filename).isSome = true)
    (hlen : (done ++ [filename]).length + 1 < 2 ^ 64) :
    (ix.allocate filename).Numbers (readable files (done ++ [filename])) := by
  have hnumbers : ix.Numbers (readable files done) := ⟨h.numbered, h.inverse, h.last⟩
  rw [readable_concat, if_pos hf]
  by_cases hold : filename ∈ readable files done
  · exact hnumbers.again hold
  · refine hnumbers.next hold ?_
    have hle := List.length_filter_le (fun filename => (files filename).isSome) done
    rw [List.length_append, List.length_singleton] at hlen ⊢
    rw [readable]
    omega

/-- The occurrences of a word after one more file. -/
theorem occurrences_concat (files : Bytes → Option Bytes) (done : List Bytes) {filename : Bytes}
    (hf : (files filename).isSome = true) (w : Bytes) :
    occurrences files (done ++ [filename]) w = occurrences files done w ++
      if w ∈ tokensOf files filename then [idOf (readable files (done ++ [filename])) filename]
      else [] := by
  have hr : readable files (done ++ [filename]) = readable files done ++ [filename] := by
    rw [readable_concat, if_pos hf]
  have hsame : ∀ name ∈ (readable files done).filter fun name => w ∈ tokensOf files name,
      idOf (readable files done ++ [filename]) name = idOf (readable files done) name :=
    fun name hname => idOf_concat_of_mem (List.mem_of_mem_filter hname) filename
  rw [occurrences, hr, List.filter_append, List.map_append, List.map_congr_left hsame, occurrences]
  by_cases hw : w ∈ tokensOf files filename <;> simp [hw]

/-- One more file. -/
theorem Indexing.Built.file {files : Bytes → Option Bytes} {done : List Bytes} {ix : Indexing}
    (h : ix.Built files done) (filename : Bytes) (hlen : (done ++ [filename]).length + 1 < 2 ^ 64) :
    (ix.file files filename).Built files (done ++ [filename]) := by
  unfold Indexing.file
  cases htok : tokenize (files filename) with
  | none =>
    -- a file that cannot be read changes nothing
    have hf : (files filename).isSome = false := by
      rw [tokenize, Option.map_eq_none_iff] at htok
      rw [htok]
      rfl
    have hr : readable files (done ++ [filename]) = readable files done := by
      rw [readable_concat, hf]
      simp
    have hocc : ∀ w, occurrences files (done ++ [filename]) w = occurrences files done w := by
      intro w
      rw [occurrences, hr, occurrences]
    exact ⟨h.tokens_nodup, h.tokens, by simpa only [hocc] using h.posted,
      by simpa only [hr] using h.numbered, by simpa only [hr] using h.inverse,
      by simpa only [hr] using h.last⟩
  | some fileTokens =>
    have hf : (files filename).isSome = true := by
      obtain ⟨text, htext, -⟩ := Option.map_eq_some_iff.mp htok
      rw [htext]
      rfl
    have htokens : tokensOf files filename = fileTokens := by rw [tokensOf, htok]; rfl
    have hmem : filename ∈ readable files (done ++ [filename]) := by
      rw [readable_concat, if_pos hf]
      simp
    obtain ⟨hnumbered, hinverse, hlast⟩ := h.allocate hf hlen
    have hfileids : (ix.allocate filename).fileids = ix.fileids := by
      rw [Indexing.allocate]
      split <;> rfl
    have hall : (ix.allocate filename).allTokens = ix.allTokens := by
      rw [Indexing.allocate]
      split <;> rfl
    have hid : (ix.allocate filename).filenameToFileid.getD filename 0 =
        idOf (readable files (done ++ [filename])) filename := by
      rw [ExtTreeMap.getD_eq_getD_getElem?, hnumbered, if_pos hmem]
      rfl
    obtain ⟨hids, hnames, hl, hnodup, htoks, hget⟩ := Indexing.words_spec
      ((ix.allocate filename).filenameToFileid.getD filename 0) fileTokens (ix.allocate filename)
      (tokenize_nodup htok) (by rw [hall]; exact h.tokens_nodup)
      (by rw [hall, hfileids]; exact h.tokens)
    refine ⟨hnodup, htoks, fun w => ?_, ?_, ?_, ?_⟩
    · rw [hget, hfileids, hid, ExtTreeMap.getD_eq_getD_getElem?, h.posted,
        occurrences_concat files done hf, htokens]
      by_cases hw : w ∈ fileTokens
      · by_cases hnil : occurrences files done w = [] <;> simp [hw, hnil]
      · simp [hw]
    · rw [hids]
      exact hnumbered
    · rw [hnames]
      exact hinverse
    · rw [hl]
      exact hlast

theorem indexFiles_built (files : Bytes → Option Bytes) (filenames : List Bytes)
    (hlen : filenames.length + 1 < 2 ^ 64) :
    (indexFiles files filenames).Built files filenames := by
  induction filenames using List.reverseRecOn with
  | nil =>
    constructor <;> simp [indexFiles, Indexing.start, readable, occurrences, firsts]
  | append_singleton filenames filename ih =>
    have hlen' : filenames.length + 1 < 2 ^ 64 := by
      rw [List.length_append, List.length_singleton] at hlen
      omega
    rw [indexFiles, List.foldl_append]
    exact (ih hlen').file filename hlen

/-! ### When the index is exact -/

/-- The posting list of a word has no repeats exactly if no name with the word is listed twice. -/
theorem occurrences_nodup {files : Bytes → Option Bytes} {filenames : List Bytes}
    (hlen : filenames.length + 1 < 2 ^ 64) (w : Bytes) :
    (occurrences files filenames w).Nodup ↔
      ∀ filename, w ∈ tokensOf files filename → filenames.count filename ≤ 1 := by
  have hrlen : (readable files filenames).length + 1 < 2 ^ 64 := by
    have := List.length_filter_le (fun filename => (files filename).isSome) filenames
    rw [readable]
    omega
  have hinj : ∀ a ∈ (readable files filenames).filter fun name => w ∈ tokensOf files name,
      ∀ b ∈ (readable files filenames).filter fun name => w ∈ tokensOf files name,
      idOf (readable files filenames) a = idOf (readable files filenames) b → a = b :=
    fun a ha b hb => idOf_inj hrlen (List.mem_of_mem_filter ha) (List.mem_of_mem_filter hb)
  have hreadable : ∀ filename, w ∈ tokensOf files filename → (files filename).isSome = true := by
    intro filename hw
    rw [tokensOf, tokenize] at hw
    cases hf : files filename with
    | none => rw [hf] at hw; simp at hw
    | some text => rfl
  have hfilter : (readable files filenames).filter (fun name => w ∈ tokensOf files name) =
      filenames.filter fun name => w ∈ tokensOf files name := by
    rw [readable, List.filter_filter]
    refine List.filter_congr fun name _ => ?_
    cases hw : decide (w ∈ tokensOf files name) with
    | false => rfl
    | true => rw [hreadable name (of_decide_eq_true hw)]; rfl
  have hmap : (occurrences files filenames w).Nodup ↔
      ((readable files filenames).filter fun name => w ∈ tokensOf files name).Nodup :=
    ⟨List.Nodup.of_map _, fun d => d.map_on hinj⟩
  have hcount : ∀ filename, w ∈ tokensOf files filename →
      (filenames.filter fun name => w ∈ tokensOf files name).count filename =
        filenames.count filename := fun filename hw =>
    List.count_filter (p := fun name => decide (w ∈ tokensOf files name)) (decide_eq_true hw)
  rw [hmap, hfilter, List.nodup_iff_count_le_one]
  constructor
  · intro h filename hw
    rw [← hcount filename hw]
    exact h filename
  · intro h filename
    by_cases hw : w ∈ tokensOf files filename
    · rw [hcount filename hw]
      exact h filename hw
    · have hnot : filename ∉ filenames.filter fun name => w ∈ tokensOf files name :=
        fun hmem => hw (of_decide_eq_true (List.mem_filter.mp hmem).2)
      rw [List.count_eq_zero_of_not_mem hnot]
      exact Nat.zero_le 1

/-- All but the repeats in posting lists is as it should be, whatever the list of names is. -/
theorem Indexing.Built.exact_iff {files : Bytes → Option Bytes} {filenames : List Bytes} {ix : Indexing}
    (h : ix.Built files filenames) (hlen : filenames.length + 1 < 2 ^ 64) :
    ix.Exact files filenames ↔
      ∀ filename, tokensOf files filename ≠ [] → filenames.count filename ≤ 1 := by
  have hrlen : (readable files filenames).length + 1 < 2 ^ 64 := by
    have := List.length_filter_le (fun filename => (files filename).isSome) filenames
    rw [readable]
    omega
  have hgetD : ∀ w, ix.fileids.getD w [] = occurrences files filenames w := by
    intro w
    rw [ExtTreeMap.getD_eq_getD_getElem?, h.posted]
    split
    · rename_i hnil
      rw [hnil]
      rfl
    · rfl
  have hnodup : (∀ w, (ix.fileids.getD w []).Nodup) ↔
      ∀ filename, tokensOf files filename ≠ [] → filenames.count filename ≤ 1 := by
    simp only [hgetD, occurrences_nodup hlen]
    constructor
    · intro hall filename hne
      obtain ⟨w, hw⟩ := List.exists_mem_of_ne_nil _ hne
      exact hall w filename hw
    · intro hall w filename hw
      exact hall filename (List.ne_nil_of_mem hw)
  constructor
  · intro hexact
    exact hnodup.mp hexact.posted_nodup
  · intro hall
    refine ⟨h.tokens_nodup, h.tokens, hnodup.mpr hall, fun w id => ?_, h.numbered, ?_, h.inverse, h.last⟩
    · rw [hgetD, occurrences, List.mem_map]
      constructor
      · rintro ⟨filename, hmem, hid⟩
        obtain ⟨hname, hw⟩ := List.mem_filter.mp hmem
        exact ⟨filename, hname, of_decide_eq_true hw, hid⟩
      · rintro ⟨filename, hname, hw, hid⟩
        exact ⟨filename, List.mem_filter.mpr ⟨hname, decide_eq_true hw⟩, hid⟩
    · intro filename hname filename' hname'
      exact idOf_inj hrlen hname hname'

end DSSE
