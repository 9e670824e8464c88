import DSSE.Storage

/-! Files that were cut short. A map or a revocation list read from a beginning of its file has the entries
    that stand there whole; a string that is cut is never taken for a string. -/

namespace DSSE
open Schemes Std

/-! ### Beginnings of files -/

/-- The beginning `f` of the file of `L` ends inside the entry `a`, behind the characters `g` of it. -/
def Torn {α : Type} (enc : α → Bytes) (L : List α) (f : Bytes) (a : α) (g : Bytes) : Prop :=
  ∃ L₁ L₂, L = L₁ ++ a :: L₂ ∧ f = L₁.flatMap enc ++ g ∧ g <+: enc a ∧ g ≠ [] ∧ g ≠ enc a

/-- A beginning of a file ends between two entries or inside one. -/
theorem prefix_flatMap {α : Type} (enc : α → Bytes) : ∀ {L : List α} {f : Bytes},
    f <+: L.flatMap enc →
    (∃ L₁ L₂, L = L₁ ++ L₂ ∧ f = L₁.flatMap enc) ∨ ∃ a g, Torn enc L f a g
  | [], f, h => Or.inl ⟨[], [], rfl, List.prefix_nil.mp h⟩
  | a :: L, f, h => by
    rw [List.flatMap_cons] at h
    rcases List.prefix_or_prefix_of_prefix h (List.prefix_append (enc a) _) with hf | ⟨f', rfl⟩
    · by_cases hnil : f = []
      · exact Or.inl ⟨[], a :: L, rfl, hnil⟩
      by_cases hall : f = enc a
      · exact Or.inl ⟨[a], L, rfl, by rw [List.flatMap_singleton, hall]⟩
      · exact Or.inr ⟨a, f, [], L, rfl, rfl, hf, hnil, hall⟩
    · rw [List.prefix_append_right_inj] at h
      rcases prefix_flatMap enc h with ⟨L₁, L₂, rfl, rfl⟩ | ⟨b, g, L₁, L₂, rfl, rfl, hg⟩
      · exact Or.inl ⟨a :: L₁, L₂, rfl, rfl⟩
      · exact Or.inr ⟨b, g, a :: L₁, L₂, rfl, by rw [List.flatMap_cons, List.append_assoc], hg⟩

/-! ### Strings -/

/-- Behind digits that reach to the end of the file the stream is at its end. -/
theorem getUnsigned_digits (limit : ℕ) {text : Bytes} (h : ∀ c ∈ text, IStream.isDigit c = true) :
    ((IStream.ofBytes text).getUnsigned limit).2.eof = true := by
  cases text with
  | nil => rfl
  | cons c text =>
    have hspace := IStream.isSpace_of_isDigit (h c List.mem_cons_self)
    have hsign : IStream.sign (c :: text) = (false, c :: text) :=
      IStream.sign_of_isDigit (h c List.mem_cons_self)
    have hgood : (IStream.ofBytes (c :: text)).good = true := rfl
    have hdrop : (c :: text).dropWhile IStream.isDigit = [] := List.dropWhile_eq_nil_iff.mpr h
    rw [IStream.getUnsigned, IStream.sentry_ofBytes hspace, if_pos hgood, IStream.ofBytes,
      IStream.number, hsign]
    simp only [hdrop, List.isEmpty_nil]
    split <;> rfl

/-- A string that is cut behind the colon is an error. -/
theorem readString_take_value {s : Bytes} (hs : s.length < 2 ^ 64) {n : ℕ}
    (hlt : (IStream.decimal s.length).length < n) (hn : n < (writeString s).length) (s₀ : Bytes) :
    (readString (.ofBytes ((writeString s).take n)) s₀).1 = false := by
  have hlen : (writeString s).length = (IStream.decimal s.length).length + (s.length + 2) := by
    simp [writeString]
  obtain ⟨m, hm⟩ : ∃ m, n = (IStream.decimal s.length).length + (m + 1) :=
    ⟨n - (IStream.decimal s.length).length - 1, by omega⟩
  have hms : m ≤ s.length := by omega
  have htext : (writeString s).take n = IStream.decimal s.length ++ 0x3a :: s.take m := by
    rw [writeString, hm, List.take_length_add_append, List.take_succ_cons,
      List.take_append_of_le_length hms]
  have hcolon : ∀ c ∈ (0x3a :: s.take m).head?, IStream.isDigit c = false := by
    intro c hc
    rw [← Option.some.inj hc]; rfl
  have hsize := IStream.getUnsigned_decimal hs hcolon
  have hc0 : (IStream.ofBytes (0x3a :: s.take m)).getChar = (some 0x3a, .ofBytes (s.take m)) :=
    IStream.getChar_ofBytes (by decide)
  rw [readString, htext, hsize]
  simp only [List.isEmpty_cons, Bool.false_eq_true, if_false, Option.getD_some]
  rw [IStream.ofBytes] at hc0
  simp only [hc0]
  have hfail : ((IStream.ofBytes (s.take m)).read s.length).2.getChar.2.fail = true := by
    have hgood : (IStream.ofBytes (s.take m)).good = true := rfl
    have htake : (s.take m).length = m := by rw [List.length_take, Nat.min_eq_left hms]
    rw [IStream.read, if_pos hgood]
    simp only [IStream.ofBytes, htake]
    rcases Nat.lt_or_ge m s.length with hshort | hall
    · simp [hshort, IStream.getChar, IStream.sentry, IStream.good]
    · have hdrop : (s.take m).drop s.length = [] := List.drop_eq_nil_of_le (by omega)
      simp [Nat.not_lt.mpr hall, hdrop, IStream.getChar, IStream.sentry, IStream.good]
  simp [hfail]

/-- A string of which only digits of the length are left is taken for the end of the file. -/
theorem readString_digits {text : Bytes} (h : ∀ c ∈ text, IStream.isDigit c = true) (s₀ : Bytes) :
    (readString (.ofBytes text) s₀).1 = true ∧ (readString (.ofBytes text) s₀).2.2.eof = true := by
  have heof := getUnsigned_digits (2 ^ 64) h
  rw [readString]
  simp only [heof, if_true, and_self]

/-- A string that is cut short is not read: there is an error, or the end of the file. -/
theorem readString_take {s : Bytes} (hs : s.length < 2 ^ 64) {n : ℕ}
    (hn : n < (writeString s).length) (s₀ : Bytes) :
    (readString (.ofBytes ((writeString s).take n)) s₀).1 = false ∨
      (readString (.ofBytes ((writeString s).take n)) s₀).2.2.eof = true := by
  rcases Nat.lt_or_ge (IStream.decimal s.length).length n with hlt | hle
  · exact Or.inl (readString_take_value hs hlt hn s₀)
  · have htext : (writeString s).take n = (IStream.decimal s.length).take n := by
      rw [writeString, List.take_append_of_le_length hle]
    rw [htext]
    exact Or.inr (readString_digits (fun c hc =>
      IStream.isDigit_decimal s.length c (List.mem_of_mem_take hc)) s₀).2

/-- A string that is cut short is not read. -/
theorem readString_cut {s g : Bytes} (hs : s.length < 2 ^ 64) (hg : g <+: writeString s)
    (hne : g ≠ writeString s) (s₀ : Bytes) :
    (readString (.ofBytes g) s₀).1 = false ∨ (readString (.ofBytes g) s₀).2.2.eof = true := by
  have hlt : g.length < (writeString s).length :=
    hg.length_le.lt_of_ne fun h => hne (hg.eq_of_length h)
  rw [List.prefix_iff_eq_take.mp hg]
  exact readString_take hs hlt s₀

/-! ### Maps -/

/-- A read of fewer characters than there should be meets the end of the file. -/
theorem eof_read_of_short {text : Bytes} {n : ℕ} (h : text.length < n) :
    ((IStream.ofBytes text).read n).2.eof = true := by
  have hgood : (IStream.ofBytes text).good = true := rfl
  rw [IStream.read, if_pos hgood]
  exact decide_eq_true h

/-- An entry of a map file. -/
def mapEntry (p : Bytes × Bytes) : Bytes := p.1 ++ writeString p.2

/-- The round of an entry that is cut is the last one: it is an error behind the key, and inside the key it
    is taken for the end of the file. -/
theorem readMapLoop_torn {p : Bytes × Bytes} (hp : Entry p) {g : Bytes} (hg : g <+: mapEntry p)
    (hne : g ≠ mapEntry p) (fuel : ℕ) (map : Dmap) :
    readMapLoop (fuel + 1) (.ofBytes g) map = (decide (g.length < KEYLEN), map) := by
  rw [readMapLoop]
  by_cases hshort : g.length < KEYLEN
  · simp only [eof_read_of_short hshort, if_true, hshort, decide_true]
  · obtain ⟨hkey, hval⟩ := hp
    obtain ⟨g', rfl⟩ : p.1 <+: g :=
      List.prefix_of_prefix_length_le (List.prefix_append p.1 _) hg (by omega)
    have hcut := readString_cut hval ((List.prefix_append_right_inj p.1).mp hg)
      (fun h => hne (by rw [h]; rfl)) []
    have hbuf := IStream.read_append p.1 g'
    rw [hkey] at hbuf
    have hstop : (!(readString (.ofBytes g') []).1 || (readString (.ofBytes g') []).2.2.eof) = true := by
      rcases hcut with h | h <;> simp [h]
    simp only [hbuf, IStream.eof_ofBytes, Bool.false_eq_true, if_false, hstop, if_true, hshort,
      decide_false]

/-- The first `n` characters of a map give its first entries, all of them only if nothing is cut. -/
theorem readMapLoop_take {L : List (Bytes × Bytes)} {n fuel : ℕ} (map : Dmap)
    (hL : ∀ p ∈ L, Entry p) (hfuel : n < fuel) : ∃ j ≤ L.length,
      (j = L.length → (L.flatMap mapEntry).length ≤ n) ∧
      (readMapLoop fuel (.ofBytes ((L.flatMap mapEntry).take n)) map).2 =
        (L.take j).foldl (fun map p => map.insert p.1 p.2) map := by
  have hn : ((L.flatMap mapEntry).take n).length ≤ n := List.length_take_le _ _
  have hentries : ∀ L₁ : List (Bytes × Bytes), L₁.length ≤ (L₁.flatMap mapEntry).length := fun L₁ =>
    length_le_length_flatMap fun q _ => by simp [mapEntry, writeString]
  rcases prefix_flatMap mapEntry (List.take_prefix n (L.flatMap mapEntry)) with
    ⟨L₁, L₂, rfl, hf⟩ | ⟨p, g, L₁, L₂, rfl, hf, hg, -, hne⟩
  · rw [hf] at hn ⊢
    refine ⟨L₁.length, by simp, fun hall => ?_, ?_⟩
    · obtain rfl : L₂ = [] := List.eq_nil_of_length_eq_zero (by simpa using hall)
      rwa [List.append_nil]
    · have hread : readMapLoop fuel (.ofBytes (L₁.flatMap mapEntry)) map = _ :=
        readMapLoop_flatMap L₁ fuel map (fun q hq => hL q (List.mem_append_left _ hq))
          (((hentries L₁).trans hn).trans_lt hfuel)
      rw [hread, List.take_left]
  · rw [hf] at hn ⊢
    refine ⟨L₁.length, by simp, fun hall => ?_, ?_⟩
    · simp at hall
    · rw [List.length_append] at hn
      obtain ⟨k, rfl⟩ : ∃ k, fuel = k + 1 + L₁.length :=
        ⟨fuel - L₁.length - 1, by have := hentries L₁; omega⟩
      have hread : readMapLoop (k + 1 + L₁.length) (.ofBytes (L₁.flatMap mapEntry ++ g)) map = _ :=
        readMapLoop_append g (k + 1) L₁ map fun q hq => hL q (List.mem_append_left _ hq)
      rw [hread, readMapLoop_torn (hL p (by simp)) hg hne, List.take_left]

/-- What is left out of a file does not stand in it. -/
theorem flatMap_ite {α : Type*} (p : α → Prop) [DecidablePred p] (f : α → Bytes) (L : List α) :
    (L.flatMap fun a => if p a then f a else []) = (L.filter fun a => p a).flatMap f := by
  induction L with
  | nil => rfl
  | cons a L ih =>
    by_cases ha : p a
    · rw [List.flatMap_cons, if_pos ha, ih, List.filter_cons_of_pos (by simpa using ha),
        List.flatMap_cons]
    · rw [List.flatMap_cons, if_neg ha, ih, List.filter_cons_of_neg (by simpa using ha),
        List.nil_append]

theorem size_foldl_insert_le (L : List (Bytes × Bytes)) : ∀ map : Dmap,
    (L.foldl (fun map p => map.insert p.1 p.2) map).size ≤ map.size + L.length := by
  induction L with
  | nil => intro map; exact le_rfl
  | cons p L ih =>
    intro map
    have hinsert : (map.insert p.1 p.2).size ≤ map.size + 1 := ExtTreeMap.size_insert_le
    have hrest := ih (map.insert p.1 p.2)
    rw [List.foldl_cons, List.length_cons]
    omega

/-- The strings in a map fit into memory. -/
def InMemory (map : Dmap) : Prop := ∀ k v : Bytes, map[k]? = some v → v.length < 2 ^ 64

/-- A map comes back from the first `n` characters of its file exactly if that is all of the file and all
    keys could be written. -/
theorem readMap_take_iff {map : Dmap} (hmem : InMemory map) (n : ℕ) :
    readMap (some ((writeMap map).take n)) ∅ = (true, map) ↔
      (∀ k ∈ map, k.length = KEYLEN) ∧ (writeMap map).length ≤ n := by
  constructor
  · intro h
    let L := map.toList.filter fun p => p.1.length = KEYLEN
    have htext : writeMap map = L.flatMap mapEntry :=
      flatMap_ite (fun p : Bytes × Bytes => p.1.length = KEYLEN) mapEntry map.toList
    have hentries : ∀ p ∈ L, Entry p := by
      intro p hp
      obtain ⟨hp, hkey⟩ := List.mem_filter.mp hp
      exact ⟨of_decide_eq_true hkey, hmem p.1 p.2 (ExtTreeMap.mem_toList_iff_getElem?_eq_some.mp hp)⟩
    have hfuel : min n (writeMap map).length < ((writeMap map).take n).length + 1 := by
      rw [List.length_take]; exact Nat.lt_succ_self _
    obtain ⟨j, hj, hall, hread⟩ := readMapLoop_take ∅ hentries hfuel
    rw [← htext] at hall hread
    rw [← List.take_eq_take_min] at hread
    -- as many entries were read as there are in the map
    have hresult : (L.take j).foldl (fun map p => map.insert p.1 p.2) ∅ = map :=
      hread.symm.trans (congrArg Prod.snd h)
    have hsize := size_foldl_insert_le (L.take j) ∅
    rw [hresult, ExtTreeMap.size_empty, Nat.zero_add, List.length_take, Nat.min_eq_left hj,
      ← ExtTreeMap.length_toList] at hsize
    have hfilter : L.length ≤ map.toList.length := List.length_filter_le _ _
    have hsame : L.length = map.toList.length := by omega
    refine ⟨fun k hk => ?_, (hall (by omega)).trans (Nat.min_le_left _ _)⟩
    obtain ⟨v, hv⟩ : ∃ v, map[k]? = some v := ⟨_, ExtTreeMap.getElem?_eq_some_getElem hk⟩
    exact of_decide_eq_true (List.length_filter_eq_length_iff.mp hsame (k, v)
      (ExtTreeMap.mem_toList_iff_getElem?_eq_some.mpr hv))
  · rintro ⟨hkeys, hn⟩
    have hwritable : Writable map := by
      intro k v hget
      refine ⟨hkeys k ?_, hmem k v hget⟩
      exact ExtTreeMap.mem_iff_isSome_getElem?.mpr (by rw [hget]; rfl)
    rw [List.take_of_length_le hn]
    exact readMap_writeMap hwritable

/-! ### Revocation lists -/

theorem readRevlistLoop_short {g : Bytes} (hg : g.length < KEYLEN) (fuel : ℕ) (m : Revlist) :
    readRevlistLoop (fuel + 1) (.ofBytes g) m = m := by
  simp only [readRevlistLoop, eof_read_of_short hg, if_true]

theorem readRevlistLoop_take {L : List Bytes} {n fuel : ℕ} (m : Revlist)
    (hL : ∀ v ∈ L, v.length = KEYLEN) (hfuel : n < fuel) : ∃ j ≤ L.length,
      (j = L.length → (L.flatMap id).length ≤ n) ∧
      readRevlistLoop fuel (.ofBytes ((L.flatMap id).take n)) m =
        (L.take j).foldl (fun m v => m.insert v) m := by
  have hn : ((L.flatMap id).take n).length ≤ n := List.length_take_le _ _
  have hids : ∀ L₁ : List Bytes, (∀ v ∈ L₁, v.length = KEYLEN) → L₁.length ≤ (L₁.flatMap id).length :=
    fun L₁ h => length_le_length_flatMap fun v hv => by rw [id_eq, h v hv]; decide
  rcases prefix_flatMap id (List.take_prefix n (L.flatMap id)) with
    ⟨L₁, L₂, rfl, hf⟩ | ⟨v, g, L₁, L₂, rfl, hf, hg, -, hne⟩
  · rw [hf] at hn ⊢
    have hL₁ : ∀ v ∈ L₁, v.length = KEYLEN := fun v hv => hL v (List.mem_append_left _ hv)
    refine ⟨L₁.length, by simp, fun hall => ?_, ?_⟩
    · obtain rfl : L₂ = [] := List.eq_nil_of_length_eq_zero (by simpa using hall)
      rwa [List.append_nil]
    · rw [readRevlistLoop_flatten L₁ fuel m hL₁ (((hids L₁ hL₁).trans hn).trans_lt hfuel),
        List.take_left]
  · rw [hf] at hn ⊢
    have hL₁ : ∀ v ∈ L₁, v.length = KEYLEN := fun v hv => hL v (List.mem_append_left _ hv)
    have hshort : g.length < KEYLEN := by
      rw [← hL v (by simp)]
      exact hg.length_le.lt_of_ne fun h => hne (hg.eq_of_length h)
    refine ⟨L₁.length, by simp, fun hall => ?_, ?_⟩
    · simp at hall
    · rw [List.length_append] at hn
      obtain ⟨k, rfl⟩ : ∃ k, fuel = k + 1 + L₁.length :=
        ⟨fuel - L₁.length - 1, by have := hids L₁ hL₁; omega⟩
      rw [readRevlistLoop_append g (k + 1) L₁ m hL₁, readRevlistLoop_short hshort, List.take_left]

theorem size_foldl_insertSet_le (L : List Bytes) : ∀ m : Revlist,
    (L.foldl (fun m v => m.insert v) m).size ≤ m.size + L.length := by
  induction L with
  | nil => intro m; exact le_rfl
  | cons v L ih =>
    intro m
    have hinsert : (m.insert v).size ≤ m.size + 1 := ExtTreeSet.size_insert_le
    have hrest := ih (m.insert v)
    rw [List.foldl_cons, List.length_cons]
    omega

theorem readRevlist_take_iff (m m₀ : Revlist) (n : ℕ) :
    readRevlist (some ((writeRevlist m).take n)) m₀ = (true, m) ↔
      (∀ v ∈ m, v.length = KEYLEN) ∧ (writeRevlist m).length ≤ n := by
  constructor
  · intro h
    let L := m.toList.filter fun v => v.length = KEYLEN
    have htext : writeRevlist m = L.flatMap id :=
      flatMap_ite (fun v : Bytes => v.length = KEYLEN) id m.toList
    have hkeylen : ∀ v ∈ L, v.length = KEYLEN := fun v hv =>
      of_decide_eq_true (List.mem_filter.mp hv).2
    have hfuel : min n (writeRevlist m).length < ((writeRevlist m).take n).length + 1 := by
      rw [List.length_take]; exact Nat.lt_succ_self _
    obtain ⟨j, hj, hall, hread⟩ := readRevlistLoop_take ∅ hkeylen hfuel
    rw [← htext] at hall hread
    rw [← List.take_eq_take_min] at hread
    have hresult : (L.take j).foldl (fun m v => m.insert v) ∅ = m :=
      hread.symm.trans (congrArg Prod.snd h)
    have hsize := size_foldl_insertSet_le (L.take j) ∅
    rw [hresult, ExtTreeSet.size_empty, Nat.zero_add, List.length_take, Nat.min_eq_left hj,
      ← ExtTreeSet.length_toList] at hsize
    have hfilter : L.length ≤ m.toList.length := List.length_filter_le _ _
    have hsame : L.length = m.toList.length := by omega
    refine ⟨fun v hv => ?_, (hall (by omega)).trans (Nat.min_le_left _ _)⟩
    exact of_decide_eq_true (List.length_filter_eq_length_iff.mp hsame v
      (ExtTreeSet.mem_toList.mpr hv))
  · rintro ⟨hkeys, hn⟩
    rw [List.take_of_length_le hn]
    exact readRevlist_writeRevlist hkeys m₀

/-! ### Numbers -/

theorem readInt_take_iff (v : Version) (n : ℕ) (value₀ : ℤ) :
    readInt (some ((writeInt v.toInt).take n)) value₀ = (true, v.toInt) ↔
      (writeInt v.toInt).length ≤ n := by
  have hone : (writeInt v.toInt).length = 1 := by cases v <;> rfl
  rw [hone]
  constructor
  · intro h
    rcases Nat.eq_zero_or_pos n with rfl | hpos
    · rw [List.take_zero] at h
      cases h
    · exact hpos
  · intro hn
    rw [List.take_of_length_le (by omega)]
    exact v.readInt_writeInt value₀

end DSSE
