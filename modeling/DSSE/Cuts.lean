import DSSE.ClientStorage
import DSSE.Truncated

/-! Where the readers tell the end of a list from an error. A file that was cut short is accepted where the
    cut is inside a key, inside a revocation id, or where it leaves digits at the end of the file; and the
    round that meets the end of a block array leaves a block behind. -/

namespace DSSE
open Schemes Std

/-! ### Entries in order -/

/-- Lists in strict order that have the same members are the same. -/
theorem eq_of_ordered {α : Type} {cmp : α → α → Ordering} [TransCmp cmp] {L L' : List α}
    (h : L.Pairwise fun a b => cmp a b = .lt) (h' : L'.Pairwise fun a b => cmp a b = .lt)
    (hmem : ∀ a, a ∈ L ↔ a ∈ L') : L = L' :=
  have hirrefl : Std.Irrefl fun a b => cmp a b = .lt :=
    ⟨fun _ ha => absurd (ReflCmp.compare_self.symm.trans ha) (by decide)⟩
  have hantisymm : Std.Antisymm fun a b => cmp a b = .lt :=
    ⟨fun _ _ hab hba => absurd hba (OrientedCmp.not_lt_of_lt hab)⟩
  h.eq_of_mem_iff h' hmem

/-- The entries of a map that was filled in the order of its keys. -/
theorem toList_foldl_insert {κ ν : Type} [DecidableEq κ] [Ord κ] [TransOrd κ] [LawfulEqOrd κ]
    {L : List (κ × ν)} (h : L.Pairwise fun p q => compare p.1 q.1 = .lt) :
    (L.foldl (fun map p => map.insert p.1 p.2) (∅ : ExtTreeMap κ ν compare)).toList = L := by
  have hdistinct : L.Pairwise fun p q => ¬ compare p.1 q.1 = .eq :=
    h.imp fun hlt heq => absurd (hlt.symm.trans heq) (by decide)
  rw [foldl_insert_eq_ofList]
  have hordered : (ExtTreeMap.ofList L compare).toList.Pairwise
      fun p q => compareOn Prod.fst p q = .lt := ExtTreeMap.ordered_keys_toList
  refine eq_of_ordered hordered h fun p => ?_
  rw [← Prod.mk.eta (p := p), ExtTreeMap.mem_toList_iff_getElem?_eq_some]
  constructor
  · intro hget
    have hkey : p.1 ∈ L.map Prod.fst := by
      by_contra hnot
      rw [ExtTreeMap.getElem?_ofList_of_contains_eq_false (by simpa using hnot)] at hget
      cases hget
    obtain ⟨q, hq, hqp⟩ := List.mem_map.mp hkey
    rw [ExtTreeMap.getElem?_ofList_of_mem (LawfulEqCmp.compare_eq_iff_eq.mpr hqp) hdistinct hq]
      at hget
    obtain rfl : q = p := Prod.ext hqp (Option.some.inj hget)
    exact hq
  · intro hp
    exact ExtTreeMap.getElem?_ofList_of_mem ReflCmp.compare_self hdistinct hp

theorem toList_foldl_insertSet {L : List Bytes} (h : L.Pairwise fun u v => compare u v = .lt) :
    (L.foldl (fun m v => m.insert v) (∅ : Revlist)).toList = L := by
  refine eq_of_ordered ExtTreeSet.ordered_toList h fun v => ?_
  rw [ExtTreeSet.mem_toList, mem_foldl_insert]
  exact or_iff_right ExtTreeSet.not_mem_empty

/-! ### Maps -/

theorem writeMap_eq {map : Dmap} (h : ∀ k ∈ map, k.length = KEYLEN) :
    writeMap map = map.toList.flatMap mapEntry := by
  rw [writeMap, List.flatMap_def, List.flatMap_def]
  refine congrArg List.flatten (List.map_congr_left fun p hp => if_pos ?_)
  exact h p.1 (ExtTreeMap.mem_iff_isSome_getElem?.mpr
    (by rw [ExtTreeMap.mem_toList_iff_getElem?_eq_some.mp hp]; rfl))

theorem writeMap_foldl {L : List (Bytes × Bytes)} (h : L.Pairwise fun p q => compare p.1 q.1 = .lt)
    (hkeys : ∀ p ∈ L, p.1.length = KEYLEN) :
    writeMap (L.foldl (fun map p => map.insert p.1 p.2) ∅) = L.flatMap mapEntry := by
  rw [writeMap, toList_foldl_insert h, List.flatMap_def, List.flatMap_def]
  exact congrArg List.flatten (List.map_congr_left fun p hp => if_pos (hkeys p hp))

/-- What is read of a map file depends on the entry in which it ends: a cut inside the key is not
    noticed, a cut behind the key is an error. -/
theorem readMap_torn {L : List (Bytes × Bytes)} (hL : ∀ p ∈ L, Entry p) {p : Bytes × Bytes}
    (hp : Entry p) {g : Bytes} (hg : g <+: mapEntry p) (hne : g ≠ mapEntry p) :
    readMap (some (L.flatMap mapEntry ++ g)) ∅ =
      (decide (g.length < KEYLEN), L.foldl (fun map p => map.insert p.1 p.2) ∅) := by
  obtain ⟨fuel, hfuel⟩ : ∃ fuel, (L.flatMap mapEntry ++ g).length + 1 = fuel + 1 + L.length := by
    have hle : L.length ≤ (L.flatMap mapEntry).length :=
      length_le_length_flatMap fun q hq => by simp [mapEntry, writeString]
    exact ⟨(L.flatMap mapEntry ++ g).length - L.length, by rw [List.length_append]; omega⟩
  have hread : readMapLoop (fuel + 1 + L.length) (.ofBytes (L.flatMap mapEntry ++ g)) ∅ =
      readMapLoop (fuel + 1) (.ofBytes g) (L.foldl (fun map p => map.insert p.1 p.2) ∅) :=
    readMapLoop_append g (fuel + 1) L ∅ hL
  rw [readMap, hfuel, hread, readMapLoop_torn hp hg hne]

/-- A beginning of a map file is taken for a whole file exactly if it ends inside a key. -/
theorem readMap_prefix_iff {map : Dmap} (hkeys : ∀ k ∈ map, k.length = KEYLEN) (hmem : InMemory map)
    {f : Bytes} (hf : f <+: writeMap map) :
    (∀ map', readMap (some f) ∅ = (true, map') → f = writeMap map') ↔
      ∀ p g, Torn mapEntry map.toList f p g → KEYLEN ≤ g.length := by
  have hentry : ∀ p ∈ map.toList, Entry p := by
    rintro p hp
    have hget := ExtTreeMap.mem_toList_iff_getElem?_eq_some.mp hp
    exact ⟨hkeys p.1 (ExtTreeMap.mem_iff_isSome_getElem?.mpr (by rw [hget]; rfl)), hmem p.1 p.2 hget⟩
  have hordered : map.toList.Pairwise fun p q => compare p.1 q.1 = .lt := ExtTreeMap.ordered_keys_toList
  rw [writeMap_eq hkeys] at hf
  constructor
  · rintro h p g ⟨L₁, L₂, hL, rfl, hg, hnil, hne⟩
    rw [hL] at hentry hordered
    have hL₁ : ∀ q ∈ L₁, Entry q := fun q hq => hentry q (List.mem_append_left _ hq)
    by_contra hshort
    have hread := readMap_torn hL₁ (hentry p (by simp)) hg hne
    rw [decide_eq_true (Nat.lt_of_not_le hshort)] at hread
    -- the file of the entries read is shorter
    have hfile := h _ hread
    rw [writeMap_foldl (List.pairwise_append.mp hordered).1 fun q hq => (hL₁ q hq).1] at hfile
    exact hnil (by simpa using hfile)
  · rintro h map' hread
    rcases prefix_flatMap _ hf with ⟨L₁, L₂, hL, rfl⟩ | ⟨p, g, htorn⟩
    · rw [hL] at hentry hordered
      have hL₁ : ∀ q ∈ L₁, Entry q := fun q hq => hentry q (List.mem_append_left _ hq)
      have hlt : L₁.length < (L₁.flatMap mapEntry).length + 1 := Nat.lt_succ_of_le
        (length_le_length_flatMap fun q _ => by simp [mapEntry, writeString])
      have hall : readMap (some (L₁.flatMap mapEntry)) ∅ =
        (true, L₁.foldl (fun map p => map.insert p.1 p.2) ∅) := readMapLoop_flatMap L₁ _ ∅ hL₁ hlt
      rw [hall, Prod.mk.injEq] at hread
      rw [← hread.2, writeMap_foldl (List.pairwise_append.mp hordered).1 fun q hq => (hL₁ q hq).1]
    · have hlong := h p g htorn
      obtain ⟨L₁, L₂, hL, rfl, hg, hnil, hne⟩ := htorn
      rw [hL] at hentry
      rw [readMap_torn (fun q hq => hentry q (List.mem_append_left _ hq)) (hentry p (by simp)) hg hne,
        decide_eq_false (Nat.not_lt.mpr hlong)] at hread
      cases hread

/-! ### Counters -/

/-- An entry of the counter file. -/
def countEntry (p : Bytes × UInt64) : Bytes := writeString p.1 ++ (IStream.decimal p.2.toNat ++ [0x0a])

theorem writeMapCount_foldl {L : List (Bytes × UInt64)}
    (h : L.Pairwise fun p q => compare p.1 q.1 = .lt) :
    writeMapCount (L.foldl (fun map p => map.insert p.1 p.2) ∅) = L.flatMap countEntry := by
  rw [writeMapCount, toList_foldl_insert h]
  rfl

/-- A counter file does not end in a digit. -/
theorem writeMapCount_ne {map : Dcountmap} {f g : Bytes} (hg : g ≠ [])
    (hdigits : ∀ c ∈ g, IStream.isDigit c = true) : f ++ g ≠ writeMapCount map := by
  intro h
  have hlast : ∀ L : List (Bytes × UInt64), ∀ c ∈ (L.flatMap countEntry).getLast?, c = 0x0a := by
    intro L c hc
    induction L using List.reverseRecOn with
    | nil => cases hc
    | append_singleton L p _ =>
      rw [List.flatMap_append, List.flatMap_singleton, countEntry, ← List.append_assoc,
        ← List.append_assoc, List.getLast?_concat] at hc
      exact (Option.some.inj hc).symm
  obtain ⟨g', c, rfl⟩ := (List.eq_nil_or_concat g).resolve_left hg
  have hc : c ∈ (writeMapCount map).getLast? := by
    rw [← h, List.concat_eq_append, ← List.append_assoc, List.getLast?_concat]
    rfl
  have hdigit := hdigits c (by simp)
  rw [hlast map.toList c hc] at hdigit
  exact absurd hdigit (by decide)

theorem readString_skip {nl : Bytes} (hnl : nl = [] ∨ nl = [0x0a]) (g s₀ : Bytes) :
    readString (.ofBytes (nl ++ g)) s₀ = readString (.ofBytes g) s₀ := by
  rcases hnl with rfl | rfl
  · rfl
  · simp only [readString, List.singleton_append, IStream.getUnsigned_space (c := 0x0a) (by decide)]

theorem le_foldl_digits : ∀ (t : Bytes) (n : ℕ),
    n ≤ t.foldl (fun n c => 10 * n + (c.toNat - 48)) n
  | [], _ => le_rfl
  | c :: t, n => by
    have ih := le_foldl_digits t (10 * n + (c.toNat - 48))
    rw [List.foldl_cons]
    omega

/-- Of the digits of a number the first ones give a number again, and the end of the file. -/
theorem getUnsigned_prefix {n limit : ℕ} (hn : n < limit) {g : Bytes} (hg : g <+: IStream.decimal n)
    (hnil : g ≠ []) : ∃ v, (IStream.ofBytes g).getUnsigned limit = (some v, ⟨[], true, false⟩) := by
  have hdigits : ∀ c ∈ g, IStream.isDigit c = true := fun c hc =>
    IStream.isDigit_decimal n c (hg.subset hc)
  have hvalue : IStream.value g ≤ n := by
    obtain ⟨t, ht⟩ := hg
    have hle := le_foldl_digits t (IStream.value g)
    rw [IStream.value, ← List.foldl_append, ht] at hle
    exact hle.trans (IStream.value_decimal n).le
  cases g with
  | nil => exact absurd rfl hnil
  | cons c g =>
    have hspace := IStream.isSpace_of_isDigit (hdigits c List.mem_cons_self)
    have hgood : (IStream.ofBytes (c :: g)).good = true := rfl
    have hdrop : (c :: g).dropWhile IStream.isDigit = [] := List.dropWhile_eq_nil_iff.mpr hdigits
    have htake : (c :: g).takeWhile IStream.isDigit = c :: g := List.takeWhile_eq_self_iff.mpr hdigits
    refine ⟨IStream.value (c :: g), ?_⟩
    rw [IStream.getUnsigned, IStream.sentry_ofBytes hspace, if_pos hgood, IStream.ofBytes,
      IStream.number, IStream.sign_of_isDigit (hdigits c List.mem_cons_self)]
    simp only [htake, hdrop, if_pos (hvalue.trans_lt hn)]
    rfl

/-- What stops a round inside the length of a token is taken for the end of the file. -/
theorem readMapCountLoop_length {g : Bytes} (hg : ∀ c ∈ g, IStream.isDigit c = true) {nl : Bytes}
    (hnl : nl = [] ∨ nl = [0x0a]) (fuel : ℕ) (m : Dcountmap) :
    readMapCountLoop (fuel + 1) (.ofBytes (nl ++ g)) m = (true, m) := by
  obtain ⟨hok, heof⟩ := readString_digits hg []
  rw [readMapCountLoop, readString_skip hnl]
  simp only [hok, heof, Bool.not_true, Bool.false_eq_true, if_false, if_true]

/-- Inside the token, and right behind it, there is an error. -/
theorem readMapCountLoop_token {s : Bytes} (hs : s.length < 2 ^ 64) {g : Bytes} (hg : g <+: writeString s)
    (hlong : (IStream.decimal s.length).length < g.length) {nl : Bytes} (hnl : nl = [] ∨ nl = [0x0a])
    (fuel : ℕ) (m : Dcountmap) :
    readMapCountLoop (fuel + 1) (.ofBytes (nl ++ g)) m = (false, m) := by
  rw [readMapCountLoop, readString_skip hnl]
  by_cases hall : g = writeString s
  · have hstring := readString_writeString hs [] []
    rw [List.append_nil] at hstring
    rw [hall, hstring]
    rfl
  · have hlt : g.length < (writeString s).length := hg.length_le.lt_of_ne fun h => hall (hg.eq_of_length h)
    have hcut := readString_take_value hs hlong hlt []
    rw [← List.prefix_iff_eq_take.mp hg] at hcut
    simp only [hcut, Bool.not_false, if_true]

/-- The first digits of a counter are taken for the counter. -/
theorem readMapCountLoop_count {s : Bytes} (hs : s.length < 2 ^ 64) {v : UInt64} {d : Bytes}
    (hd : d <+: IStream.decimal v.toNat) (hnil : d ≠ []) {nl : Bytes} (hnl : nl = [] ∨ nl = [0x0a])
    (fuel : ℕ) (m : Dcountmap) :
    (readMapCountLoop (fuel + 2) (.ofBytes (nl ++ (writeString s ++ d))) m).1 = true := by
  obtain ⟨v', hv'⟩ := getUnsigned_prefix v.toNat_lt hd hnil
  rw [readMapCountLoop, readString_skip hnl, readString_writeString hs]
  simp only [Bool.not_true, Bool.false_eq_true, if_false, IStream.eof_ofBytes, hv']
  rw [readMapCountLoop]
  rfl

/-- What is read of a counter file depends on the entry in which it ends: a cut that leaves only digits of
    the length, or the token and digits of its counter, is not noticed. -/
theorem readMapCount_torn {L : List (Bytes × UInt64)} (hL : ∀ p ∈ L, p.1.length < 2 ^ 64)
    {p : Bytes × UInt64} (hp : p.1.length < 2 ^ 64) {g : Bytes} (hg : g <+: countEntry p)
    (hnil : g ≠ []) (hne : g ≠ countEntry p) :
    ((readMapCount (some (L.flatMap countEntry ++ g)) ∅).1 = false ↔
      (IStream.decimal p.1.length).length < g.length ∧ g.length ≤ (writeString p.1).length) ∧
    ((readMapCount (some (L.flatMap countEntry ++ g)) ∅).1 = true →
      ∃ f d, g = f ++ d ∧ d ≠ [] ∧ ∀ c ∈ d, IStream.isDigit c = true) := by
  obtain ⟨m, hm⟩ : ∃ m, L.foldl (fun map p => map.insert p.1 p.2) (∅ : Dcountmap) = m := ⟨_, rfl⟩
  obtain ⟨fuel, hfuel⟩ : ∃ fuel, (L.flatMap countEntry ++ g).length + 1 = fuel + 2 + L.length := by
    have hle : L.length ≤ (L.flatMap countEntry).length :=
      length_le_length_flatMap fun q hq => by simp [countEntry, writeString]
    have hpos := List.length_pos_iff.mpr hnil
    exact ⟨(L.flatMap countEntry ++ g).length - L.length - 1, by rw [List.length_append]; omega⟩
  have hread : readMapCount (some (L.flatMap countEntry ++ g)) ∅ =
      readMapCountLoop (fuel + 2) (.ofBytes (lineBreak [] L ++ g)) m := by
    rw [readMapCount, hfuel, ← hm]
    exact readMapCountLoop_append g (fuel + 2) L [] ∅ (Or.inl rfl) hL
  have hbreak := lineBreak_eq L
  have hstring : writeString p.1 <+: countEntry p := List.prefix_append _ _
  rw [hread]
  rcases Nat.lt_or_ge (IStream.decimal p.1.length).length g.length with hlong | hshort
  · rcases Nat.lt_or_ge (writeString p.1).length g.length with hbehind | hinside
    · obtain ⟨d, rfl⟩ : writeString p.1 <+: g := List.prefix_of_prefix_length_le hstring hg hbehind.le
      have hd : d <+: IStream.decimal p.2.toNat := by
        have hd := (List.prefix_append_right_inj _).mp hg
        have hlt : d.length ≠ (IStream.decimal p.2.toNat ++ [0x0a]).length := fun h =>
          hne (by rw [countEntry, hd.eq_of_length h])
        have hle := hd.length_le
        rw [List.length_append, List.length_singleton] at hle hlt
        exact List.prefix_of_prefix_length_le hd (List.prefix_append _ [0x0a]) (by omega)
      have hdnil : d ≠ [] := by rintro rfl; simp at hbehind
      refine ⟨iff_of_false ?_ fun h => absurd h.2 (Nat.not_le.mpr hbehind),
        fun _ => ⟨_, d, rfl, hdnil, fun c hc => IStream.isDigit_decimal _ c (hd.subset hc)⟩⟩
      rw [readMapCountLoop_count hp hd hdnil hbreak]
      exact Bool.true_eq_false.mp
    · have hg' : g <+: writeString p.1 := List.prefix_of_prefix_length_le hg hstring hinside
      rw [readMapCountLoop_token hp hg' hlong hbreak]
      exact ⟨iff_of_true rfl ⟨hlong, hinside⟩, fun h => absurd h Bool.false_ne_true⟩
  · have hd : g <+: IStream.decimal p.1.length :=
      List.prefix_of_prefix_length_le hg ((List.prefix_append _ _).trans hstring) hshort
    have hdigits : ∀ c ∈ g, IStream.isDigit c = true := fun c hc =>
      IStream.isDigit_decimal _ c (hd.subset hc)
    rw [readMapCountLoop_length hdigits hbreak]
    exact ⟨iff_of_false (Bool.true_eq_false.mp) fun h => absurd h.1 (Nat.not_lt.mpr hshort),
      fun _ => ⟨[], g, rfl, hnil, hdigits⟩⟩

/-- A beginning of a counter file is taken for a whole file exactly if it ends inside the digits of a
    length, or right behind them, or behind a token inside its counter. -/
theorem readMapCount_prefix_iff {map : Dcountmap} (hmem : ∀ k ∈ map, k.length < 2 ^ 64) {f : Bytes}
    (hf : f <+: writeMapCount map) :
    (∀ map', readMapCount (some f) ∅ = (true, map') → f = writeMapCount map') ↔
      ∀ p g, Torn countEntry map.toList f p g →
        (IStream.decimal p.1.length).length < g.length ∧ g.length ≤ (writeString p.1).length := by
  have hentry : ∀ p ∈ map.toList, p.1.length < 2 ^ 64 := fun p hp =>
    hmem p.1 (ExtTreeMap.mem_iff_isSome_getElem?.mpr
      (by rw [ExtTreeMap.mem_toList_iff_getElem?_eq_some.mp hp]; rfl))
  have hordered : map.toList.Pairwise fun p q => compare p.1 q.1 = .lt := ExtTreeMap.ordered_keys_toList
  constructor
  · rintro h p g ⟨L₁, L₂, hL, rfl, hg, hnil, hne⟩
    rw [hL] at hentry
    obtain ⟨hstop, hdigits⟩ := readMapCount_torn (fun q hq => hentry q (List.mem_append_left _ hq))
      (hentry p (by simp)) hg hnil hne
    refine hstop.mp (Bool.eq_false_iff.mpr fun htrue => ?_)
    obtain ⟨f', d, rfl, hd, hdigit⟩ := hdigits htrue
    have hfile := h _ (Prod.ext htrue rfl)
    rw [← List.append_assoc] at hfile
    exact writeMapCount_ne hd hdigit hfile
  · rintro h map' hread
    rcases prefix_flatMap countEntry hf with ⟨L₁, L₂, hL, rfl⟩ | ⟨p, g, htorn⟩
    · rw [hL] at hentry hordered
      have hlt : L₁.length < (L₁.flatMap countEntry).length + 1 := Nat.lt_succ_of_le
        (length_le_length_flatMap fun q _ => by simp [countEntry, writeString])
      have hall : readMapCount (some (L₁.flatMap countEntry)) ∅ =
          (true, L₁.foldl (fun map p => map.insert p.1 p.2) ∅) :=
        readMapCountLoop_flatMap L₁ _ ∅ (fun q hq => hentry q (List.mem_append_left _ hq)) hlt
      rw [hall, Prod.mk.injEq] at hread
      rw [← hread.2, writeMapCount_foldl (List.pairwise_append.mp hordered).1]
    · have hstop := h p g htorn
      obtain ⟨L₁, L₂, hL, rfl, hg, hnil, hne⟩ := htorn
      rw [hL] at hentry
      have hfalse := (readMapCount_torn (fun q hq => hentry q (List.mem_append_left _ hq))
        (hentry p (by simp)) hg hnil hne).1.mpr hstop
      rw [hread] at hfalse
      cases hfalse

/-! ### Revocation lists -/

theorem writeRevlist_eq {m : Revlist} (h : ∀ v ∈ m, v.length = KEYLEN) :
    writeRevlist m = m.toList.flatMap id := by
  rw [writeRevlist, List.flatMap_def, List.flatMap_def]
  exact congrArg List.flatten (List.map_congr_left fun v hv =>
    if_pos (h v (ExtTreeSet.mem_toList.mp hv)))

/-- What is left of an id behind whole ones is dropped. -/
theorem readRevlist_torn {L : List Bytes} (hL : ∀ v ∈ L, v.length = KEYLEN) {g : Bytes}
    (hg : g.length < KEYLEN) (m₀ : Revlist) :
    readRevlist (some (L.flatMap id ++ g)) m₀ = (true, L.foldl (fun m v => m.insert v) ∅) := by
  obtain ⟨fuel, hfuel⟩ : ∃ fuel, (L.flatMap id ++ g).length + 1 = fuel + 1 + L.length := by
    have hle : L.length ≤ (L.flatMap id).length :=
      length_le_length_flatMap fun v hv => by rw [id_eq, hL v hv]; decide
    exact ⟨(L.flatMap id ++ g).length - L.length, by rw [List.length_append]; omega⟩
  rw [readRevlist, hfuel, readRevlistLoop_append g (fuel + 1) L ∅ hL, readRevlistLoop_short hg]

/-- A beginning of a revocation list is taken for a whole one exactly if it ends inside an id. -/
theorem readRevlist_prefix_iff {m : Revlist} (hids : ∀ v ∈ m, v.length = KEYLEN) {f : Bytes}
    (hf : f <+: writeRevlist m) :
    (∀ m', readRevlist (some f) ∅ = (true, m') → f = writeRevlist m') ↔
      ∀ v g, ¬ Torn id m.toList f v g := by
  have hlen : ∀ v ∈ m.toList, v.length = KEYLEN := fun v hv => hids v (ExtTreeSet.mem_toList.mp hv)
  have hordered : m.toList.Pairwise fun u v => compare u v = .lt := ExtTreeSet.ordered_toList
  rw [writeRevlist_eq hids] at hf
  have hwhole : ∀ L : List Bytes, L.Pairwise (fun u v => compare u v = .lt) →
      (∀ v ∈ L, v.length = KEYLEN) →
      writeRevlist (L.foldl (fun m v => m.insert v) ∅) = L.flatMap id := by
    intro L hL hkeys
    rw [writeRevlist_eq, toList_foldl_insertSet hL]
    intro v hv
    rw [mem_foldl_insert] at hv
    exact hkeys v (hv.resolve_left ExtTreeSet.not_mem_empty)
  constructor
  · rintro h v g ⟨L₁, L₂, hL, rfl, hg, hnil, hne⟩
    rw [hL] at hlen hordered
    have hL₁ : ∀ u ∈ L₁, u.length = KEYLEN := fun u hu => hlen u (List.mem_append_left _ hu)
    have hshort : g.length < KEYLEN := by
      rw [← hlen v (by simp)]
      exact hg.length_le.lt_of_ne fun h => hne (hg.eq_of_length h)
    have hfile := h _ (readRevlist_torn hL₁ hshort ∅)
    rw [hwhole L₁ (List.pairwise_append.mp hordered).1 hL₁] at hfile
    exact hnil (by simpa using hfile)
  · rintro h m' hread
    rcases prefix_flatMap _ hf with ⟨L₁, L₂, hL, rfl⟩ | ⟨v, g, htorn⟩
    · rw [hL] at hlen hordered
      have hL₁ : ∀ u ∈ L₁, u.length = KEYLEN := fun u hu => hlen u (List.mem_append_left _ hu)
      have hall := readRevlist_torn hL₁ (g := []) (by decide) ∅
      rw [List.append_nil, hread, Prod.mk.injEq] at hall
      rw [hall.2, hwhole L₁ (List.pairwise_append.mp hordered).1 hL₁]
    · exact absurd htorn (h v g)

/-! ### Truncated files -/

/-- **A truncated file is rejected exactly if** it does not break off inside a key (of `D` and `Dplus`),
    inside a revocation id (of `Srev`), in the decimal length in front of a token, or behind the token
    before the line is complete (in `Dcount`). -/
theorem truncated_rejected_iff (f : Bytes) :
    (∀ map : Dmap, (∀ k ∈ map, k.length = KEYLEN) → InMemory map → f <+: writeMap map →
      ((∀ map', readMap (some f) ∅ = (true, map') → f = writeMap map') ↔
        ∀ p g, Torn mapEntry map.toList f p g → KEYLEN ≤ g.length)) ∧
    (∀ map : Dcountmap, (∀ k ∈ map, k.length < 2 ^ 64) → f <+: writeMapCount map →
      ((∀ map', readMapCount (some f) ∅ = (true, map') → f = writeMapCount map') ↔
        ∀ p g, Torn countEntry map.toList f p g →
          (IStream.decimal p.1.length).length < g.length ∧ g.length ≤ (writeString p.1).length)) ∧
    ∀ m : Revlist, (∀ v ∈ m, v.length = KEYLEN) → f <+: writeRevlist m →
      ((∀ m', readRevlist (some f) ∅ = (true, m') → f = writeRevlist m') ↔
        ∀ v g, ¬ Torn id m.toList f v g) :=
  ⟨fun _ hkeys hmem hf => readMap_prefix_iff hkeys hmem hf,
    fun _ hmem hf => readMapCount_prefix_iff hmem hf,
    fun _ hids hf => readRevlist_prefix_iff hids hf⟩

def zeroKey : Bytes := List.replicate KEYLEN 0

/-- For files of one entry each, cut in the middle. -/
theorem truncated_rejected_iff_sample :
    ((∀ map', readMap (some (zeroKey ++ [0x31])) ∅ = (true, map') →
        zeroKey ++ [0x31] = writeMap map') ↔
      ∀ p g, Torn mapEntry ((∅ : Dmap).insert zeroKey [7]).toList (zeroKey ++ [0x31]) p g →
        KEYLEN ≤ g.length) ∧
    ((∀ map', readMapCount (some [0x31, 0x3a, 97]) ∅ = (true, map') →
        [0x31, 0x3a, 97] = writeMapCount map') ↔
      ∀ p g, Torn countEntry ((∅ : Dcountmap).insert [97] 12).toList [0x31, 0x3a, 97] p g →
        (IStream.decimal p.1.length).length < g.length ∧ g.length ≤ (writeString p.1).length) ∧
    ((∀ m', readRevlist (some [0]) ∅ = (true, m') → [0] = writeRevlist m') ↔
      ∀ v g, ¬ Torn id ((∅ : Revlist).insert zeroKey).toList [0] v g) := by
  refine ⟨(truncated_rejected_iff _).1 ((∅ : Dmap).insert zeroKey [7]) ?_ ?_ (by decide),
    (truncated_rejected_iff _).2.1 ((∅ : Dcountmap).insert [97] 12) ?_ (by decide),
    (truncated_rejected_iff _).2.2 ((∅ : Revlist).insert zeroKey) ?_ (by decide)⟩
  · intro k hk
    rcases ExtTreeMap.mem_insert.mp hk with hk | hk
    · rw [← LawfulEqCmp.compare_eq_iff_eq.mp hk]; rfl
    · exact absurd hk ExtTreeMap.not_mem_empty
  · intro k v hget
    rw [ExtTreeMap.getElem?_insert] at hget
    split at hget
    · rw [← Option.some.inj hget]; decide
    · rw [ExtTreeMap.getElem?_empty] at hget; cases hget
  · intro k hk
    rcases ExtTreeMap.mem_insert.mp hk with hk | hk
    · rw [← LawfulEqCmp.compare_eq_iff_eq.mp hk]; decide
    · exact absurd hk ExtTreeMap.not_mem_empty
  · intro v hv
    rcases ExtTreeSet.mem_insert.mp hv with hv | hv
    · rw [← LawfulEqCmp.compare_eq_iff_eq.mp hv]; rfl
    · exact absurd hv ExtTreeSet.not_mem_empty

/-- The file `1:a,12` of the token `a` with the counter 12, cut in the counter, is read as the counter 1,
    and a file of one byte in place of a key is read as no entries. -/
theorem truncated_accepted :
    [0x31, 0x3a, 97, 0x2c, 0x31] <+: writeMapCount ((∅ : Dcountmap).insert [97] 12) ∧
    readMapCount (some [0x31, 0x3a, 97, 0x2c, 0x31]) ∅ = (true, (∅ : Dcountmap).insert [97] 1) ∧
    [0x31, 0x3a, 97, 0x2c, 0x31] ≠ writeMapCount ((∅ : Dcountmap).insert [97] 1) ∧
    [0] <+: writeMap ((∅ : Dmap).insert zeroKey []) ∧
    readMap (some [0]) ∅ = (true, ∅) ∧ [0] ≠ writeMap ∅ ∧
    [0] <+: writeRevlist ((∅ : Revlist).insert zeroKey) ∧
    readRevlist (some [0]) ∅ = (true, ∅) ∧ [0] ≠ writeRevlist ∅ :=
  ⟨by decide, rfl, by decide, by decide, rfl, by decide, by decide, rfl, by decide⟩

/-! ### The end of a block array -/

/-- A length that does not fit into 64 bits is not read. -/
theorem readString_oversize {s : Bytes} (hs : 2 ^ 64 ≤ s.length) (rest s₀ : Bytes) :
    (readString (.ofBytes (writeString s ++ rest)) s₀).1 = false := by
  have hcolon : ∀ c ∈ (0x3a :: (s ++ 0x2c :: rest)).head?, IStream.isDigit c = false := by
    intro c hc
    rw [← Option.some.inj hc]; rfl
  have htext : writeString s ++ rest = IStream.decimal s.length ++ 0x3a :: (s ++ 0x2c :: rest) := by
    simp [writeString]
  have hgood : (IStream.ofBytes (IStream.decimal s.length ++ 0x3a :: (s ++ 0x2c :: rest))).good =
      true := rfl
  rw [readString, htext, IStream.getUnsigned, IStream.sentry_decimal, if_pos hgood, IStream.ofBytes]
  simp only [IStream.number_decimal _ hcolon, if_neg (Nat.not_lt.mpr hs), List.isEmpty_cons,
    Bool.false_eq_true, if_false, if_true]

theorem readBlocksLoop_oversize (L : List Bytes) : ∀ (fuel : ℕ) (A : List Bytes),
    (∃ s ∈ L, 2 ^ 64 ≤ s.length) →
    (readBlocksLoop fuel A.length (.ofBytes (L.flatMap writeString)) A).1 = false := by
  induction L with
  | nil => rintro _ _ ⟨_, hs, _⟩; cases hs
  | cons s L ih =>
    rintro (_ | fuel) A hL
    · rfl
    rw [List.flatMap_cons, readBlocksLoop]
    rcases Nat.lt_or_ge s.length (2 ^ 64) with hs | hs
    · have hset : (A ++ [[]]).set A.length s = A ++ [s] := by simp
      simp only [readString_writeString hs, hset, IStream.eof_ofBytes, Bool.not_true,
        Bool.false_eq_true, if_false]
      have hrest := ih fuel (A ++ [s]) (by
        obtain ⟨u, hu, hlen⟩ := hL
        rcases List.mem_cons.mp hu with rfl | hu
        · exact absurd hs (Nat.not_lt.mpr hlen)
        · exact ⟨u, hu, hlen⟩)
      rw [List.length_append, List.length_singleton] at hrest
      exact hrest
    · simp only [readString_oversize hs, Bool.not_false, if_true]

/-- **No block array comes back as it was**: where the file is read there is an empty block behind the
    blocks that were written. -/
theorem readBlocks_grows (A : List Bytes) :
    readBlocks (some (writeBlocks A)) [] ≠ (true, A) ∧
    ((readBlocks (some (writeBlocks A)) []).1 = true →
      (readBlocks (some (writeBlocks A)) []).2.length = A.length + 1) := by
  by_cases h : ∀ s ∈ A, s.length < 2 ^ 64
  · rw [readBlocks_writeBlocks h]
    refine ⟨fun hsame => ?_, fun _ => by simp⟩
    have hlen := congrArg (fun r => r.2.length) hsame
    simp at hlen
  · push Not at h
    have hfalse : (readBlocks (some (writeBlocks A)) []).1 = false := readBlocksLoop_oversize A _ [] h
    refine ⟨fun hsame => ?_, fun htrue => absurd (hfalse.symm.trans htrue) Bool.false_ne_true⟩
    rw [hsame] at hfalse
    cases hfalse

/-- An array of one block comes back with two. -/
theorem readBlocks_one_more :
    readBlocks (some (writeBlocks [[1]])) [] = (true, [[1], []]) ∧
    readBlocks (some (writeBlocks [[1]])) [] ≠ (true, [[1]]) := by
  have hread : readBlocks (some (writeBlocks [[1]])) [] = (true, [[1], []]) := rfl
  exact ⟨hread, by rw [hread]; decide⟩

end DSSE
