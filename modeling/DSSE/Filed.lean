import DSSE.Layouts
import DSSE.Exchange

/-! A dictionary of the server that keeps a list of ciphertexts for every word, item `c` of the word
    `w` under the label `mac_long(mac_key(key, '1', w), c)`. As long as the HMAC computations in `log`
    do not collide, a search reads the list of its word and nothing else, and a new label is free. -/

namespace DSSE
open Schemes Std

variable (tc : Tomcrypt)

/-- `dict` keeps the lists `cts` under labels derived with `key`, each computed in `log`. -/
structure Filed (log : List MacCall) (key : Bytes) (dict : Dmap) (cts : Bytes → List Bytes) : Prop where
  stores : Stores (fun l => dict[l]?) (fun w c => derived tc key w (UInt64.ofNat c)) cts
  fits : ∀ w, (cts w).length < 2 ^ 64
  nulFree : ∀ w, cts w ≠ [] → NulFree w
  logged : ∀ w c, c < (cts w).length → derivedCalls tc key w (UInt64.ofNat c) ⊆ log

theorem stores_emptyDict (label : Bytes → ℕ → Bytes) :
    Stores (fun l => (∅ : Dmap)[l]?) label fun _ => [] := by
  have : (fun l : Bytes => (∅ : Dmap)[l]?) = fun _ => none := by funext l; simp
  rw [this]
  exact stores_empty label

/-- One more item under the next label of its list. -/
theorem stores_insert {label : Bytes → ℕ → Bytes} {dict : Dmap} {E : Bytes → List Bytes}
    (hs : Stores (fun l => dict[l]?) label E) {w : Bytes} (ha : Apart label E w (E w).length)
    (d : Bytes) :
    Stores (fun l => (dict.insert (label w (E w).length) d)[l]?) label
      (Function.update E w (E w ++ [d])) := by
  have hstores := hs.append ha d
  convert hstores using 1
  funext l
  rw [ExtTreeMap.getElem?_insert, Function.update_apply]
  simp only [LawfulEqCmp.compare_eq_iff_eq]
  exact if_congr eq_comm rfl rfl

theorem filed_empty (log : List MacCall) (key : Bytes) : Filed tc log key ∅ fun _ => [] where
  stores := stores_emptyDict _
  fits _ := by simp
  nulFree _ h := absurd rfl h
  logged _ _ h := absurd h (Nat.not_lt_zero _)

theorem ofNat_inj {c c' : ℕ} (hc : c < 2 ^ 64) (hc' : c' < 2 ^ 64)
    (h : UInt64.ofNat c = UInt64.ofNat c') : c = c' := by
  have := congrArg UInt64.toNat h
  rwa [UInt64.toNat_ofNat_of_lt' hc, UInt64.toNat_ofNat_of_lt' hc'] at this

variable {tc} {log : List MacCall} {key : Bytes} {dict : Dmap} {cts : Bytes → List Bytes}

theorem Filed.mono (h : Filed tc log key dict cts) {log' : List MacCall} (hsub : log ⊆ log') :
    Filed tc log' key dict cts :=
  ⟨h.stores, h.fits, h.nulFree, fun w c hc => List.Subset.trans (h.logged w c hc) hsub⟩

/-- A label that was computed in `log` is not that of another item. -/
theorem Filed.apart (h : Filed tc log key dict cts) (hn : NoCollision tc log) {w : Bytes} {c : ℕ}
    (hw : NulFree w) (hc : c < 2 ^ 64) (hlog : derivedCalls tc key w (UInt64.ofNat c) ⊆ log) :
    Apart (fun w c => derived tc key w (UInt64.ofNat c)) cts w c := by
  intro w' c' hc' hl
  have hne : cts w' ≠ [] := by rintro he; rw [he] at hc'; simp at hc'
  obtain ⟨rfl, hx⟩ := derived_inj_word hn (h.nulFree w' hne) hw (h.logged w' c' hc') hlog hl
  exact ⟨rfl, ofNat_inj (hc'.trans (h.fits w')) hc hx⟩

theorem Filed.getElem? (h : Filed tc log key dict cts) (hn : NoCollision tc log) {w : Bytes} {c : ℕ}
    (hw : NulFree w) (hc : c < 2 ^ 64) (hlog : derivedCalls tc key w (UInt64.ofNat c) ⊆ log) :
    dict[derived tc key w (UInt64.ofNat c)]? = (cts w)[c]? :=
  h.stores.find_label (h.apart hn hw hc hlog)

/-- One more ciphertext under the next label of its word. -/
theorem Filed.insert (h : Filed tc log key dict cts) (hn : NoCollision tc log) {w : Bytes}
    (hw : NulFree w) (hfit : (cts w).length + 1 < 2 ^ 64)
    (hlog : derivedCalls tc key w (UInt64.ofNat (cts w).length) ⊆ log) (d : Bytes) :
    Filed tc log key (dict.insert (derived tc key w (UInt64.ofNat (cts w).length)) d)
      (Function.update cts w (cts w ++ [d])) where
  stores := stores_insert h.stores (h.apart hn hw (h.fits w) hlog) d
  fits u := by
    rcases eq_or_ne u w with rfl | hu
    · rw [Function.update_self, List.length_append]; exact hfit
    · rw [Function.update_of_ne hu]; exact h.fits u
  nulFree u hne := by
    rcases eq_or_ne u w with rfl | hu
    · exact hw
    · rw [Function.update_of_ne hu] at hne; exact h.nulFree u hne
  logged u c hc := by
    rcases eq_or_ne u w with rfl | hu
    · rw [Function.update_self, List.length_append, List.length_singleton] at hc
      rcases Nat.lt_succ_iff_lt_or_eq.mp hc with hlt | rfl
      · exact h.logged u c hlt
      · exact hlog
    · rw [Function.update_of_ne hu] at hc; exact h.logged u c hc

/-- The dictionary has room for the list of every word. -/
theorem Filed.length_le_size (h : Filed tc log key dict cts) (hn : NoCollision tc log) (w : Bytes) :
    (cts w).length ≤ dict.size := by
  have hnodup : ((List.range (cts w).length).map fun c =>
      derived tc key w (UInt64.ofNat c)).Nodup := by
    refine List.Nodup.map_on ?_ List.nodup_range
    intro c hc c' hc' he
    rw [List.mem_range] at hc hc'
    have hx := (derived_inj hn (h.logged w c hc) (h.logged w c' hc') he).2.2
    exact ofNat_inj (hc.trans (h.fits w)) (hc'.trans (h.fits w)) hx
  have hsub : ((List.range (cts w).length).map fun c => derived tc key w (UInt64.ofNat c)) ⊆
      dict.keys := by
    intro l hl
    obtain ⟨c, hc, rfl⟩ := List.mem_map.mp hl
    have hhit := h.stores.hit w c _ (List.getElem?_eq_getElem (List.mem_range.mp hc))
    rw [ExtTreeMap.mem_keys, ← ExtTreeMap.contains_iff_mem, ExtTreeMap.contains_eq_isSome_getElem?,
      hhit]
    rfl
  have hle := (hnodup.subperm hsub).length_le
  rwa [List.length_map, List.length_range, ExtTreeMap.length_keys] at hle

/-! ### Reading a word's list -/

/-- A search of `w` looks up the labels of what it finds and the one behind them. -/
theorem derivedCalls_subset_of_hits {w : Bytes} {cs : List Bytes}
    (hit : ∀ (i : ℕ) d, cs[i]? = some d →
      dict[macLong tc (macKey tc key 0x31 w) (UInt64.ofNat (0 + i))]? = some d)
    (hfit : cs.length < 2 ^ 64) (hkey : macKeyCall key 0x31 w ∈ log)
    (hlabels : labelCalls tc dict (macKey tc key 0x31 w) ⊆ log) {c : ℕ} (hc : c ≤ cs.length) :
    derivedCalls tc key w (UInt64.ofNat c) ⊆ log := by
  have hprobed := mem_probed (fun c => dict[macLong tc (macKey tc key 0x31 w) (UInt64.ofNat c)]?) hit
    hfit hc
  rw [Nat.zero_add] at hprobed
  intro call hcall
  rcases List.mem_cons.mp hcall with rfl | hcall
  · exact hkey
  · rw [List.mem_singleton.mp hcall]
    exact hlabels (List.mem_map.mpr ⟨c, hprobed, rfl⟩)

theorem Filed.hit (h : Filed tc log key dict cts) (w : Bytes) (i : ℕ) (d : Bytes)
    (hd : (cts w)[i]? = some d) :
    dict[macLong tc (macKey tc key 0x31 w) (UInt64.ofNat (0 + i))]? = some d := by
  rw [Nat.zero_add]; exact h.stores.hit w i d hd

theorem Filed.derivedCalls_subset (h : Filed tc log key dict cts) {w : Bytes}
    (hkey : macKeyCall key 0x31 w ∈ log)
    (hlabels : labelCalls tc dict (macKey tc key 0x31 w) ⊆ log) {c : ℕ} (hc : c ≤ (cts w).length) :
    derivedCalls tc key w (UInt64.ofNat c) ⊆ log :=
  derivedCalls_subset_of_hits (h.hit w) (h.fits w) hkey hlabels hc

theorem Filed.labelLoop (h : Filed tc log key dict cts) (hn : NoCollision tc log) {w : Bytes}
    (hw : NulFree w) (hlog : derivedCalls tc key w (UInt64.ofNat (cts w).length) ⊆ log)
    {body : Bytes → Except Halt (List UInt64)} {outs : List (List UInt64)}
    (hbody : List.Forall₂ (fun d out => body d = .ok out) (cts w) outs) :
    DSSE.labelLoop tc dict (macKey tc key 0x31 w) body = .ok outs.flatten := by
  have hrun : Run (fun c => dict[macLong tc (macKey tc key 0x31 w) (UInt64.ofNat c)]?) 0 (cts w) := by
    refine ⟨h.hit w, ?_⟩
    have hmiss := h.getElem? hn hw (h.fits w) hlog
    rw [List.getElem?_eq_none le_rfl] at hmiss
    rw [Nat.zero_add]; exact hmiss
  exact probe_run hrun (h.fits w) hbody

end DSSE
