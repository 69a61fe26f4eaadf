import Skp.Adt.IdtModel
import Skp.Foundations.Scans

/-! # The page walk of `idt_alloc`

The rounds over the pages, with the extra one for a first page entered in its middle, look at every
position of the range, going up cyclically from the cursor. A page skipped for its counter has no
clear bit. -/
namespace Skp.Adt
set_option autoImplicit false
open Skp.Foundations

/-! ## Bits and pages -/

theorem findNextBit_find? {f : ℕ → Bool} {n s : ℕ} :
    (List.range' s (n - s)).find? f = if findNextBit f n s < n then some (findNextBit f n s) else none := by
  unfold findNextBit
  cases h : (List.range' s (n - s)).find? f with
  | none => simp
  | some i =>
    have hi := List.mem_range'_1.mp (List.mem_of_find?_eq_some h)
    have hlt : i < n := by omega
    simp [hlt]

theorem allocInPage_eq_find? (page : ℕ → Bool) {nrBit off : ℕ} (hoff : off < nrBit) (n : ℕ) :
    allocInPage page nrBit (n + 2) off = (List.range' off (nrBit - off)).find? fun i => !page i := by
  have hrange : List.range' off (nrBit - off) = off :: List.range' (off + 1) (nrBit - off - 1) := by
    rw [← List.range'_succ]
    congr 1
    omega
  rw [allocInPage]
  by_cases hclear : (!page off) = true
  · rw [if_pos hclear, hrange]
    exact (List.find?_cons_of_pos (p := fun i => !page i) hclear).symm
  · rw [if_neg hclear]
    change (if nrBit ≤ findNextZeroBit page nrBit off then none
      else allocInPage page nrBit (n + 1) (findNextZeroBit page nrBit off)) = _
    rw [findNextBit_find?]
    change _ = if findNextZeroBit page nrBit off < nrBit then some (findNextZeroBit page nrBit off) else none
    by_cases hlt : findNextZeroBit page nrBit off < nrBit
    · have hsome : (List.range' off (nrBit - off)).find? (fun i => !page i) =
        some (findNextZeroBit page nrBit off) :=
        findNextBit_find?.trans (if_pos hlt)
      have hbit := List.find?_some hsome
      rw [if_neg (by omega), if_pos hlt, allocInPage, if_pos hbit]
    · rw [if_pos (by omega), if_neg hlt]

/-- The number of bits of page `p` of `n` bits. -/
def pageSize (n p : ℕ) : ℕ := min bitsPerPage (n - p * bitsPerPage)

theorem pageSize_of_lt {n p : ℕ} (hn : 0 < n) (hp : p < idtPages n) :
    (if p < idtPages n - 1 then bitsPerPage else lastBits n) = pageSize n p := by
  unfold pageSize lastBits idtPages bitsPerPage at *
  split_ifs <;> omega

theorem pageSize_pos {n p : ℕ} (hp : p < idtPages n) : 0 < pageSize n p := by
  unfold pageSize idtPages bitsPerPage at *
  omega

theorem mkId_lt {n p o : ℕ} (ho : o < pageSize n p) : mkId p o < n := by
  unfold pageSize mkId bitsPerPage at *
  omega

theorem mkId_div_mod (i : ℕ) : mkId (i / bitsPerPage) (i % bitsPerPage) = i := Nat.div_add_mod' i bitsPerPage

theorem mod_lt_pageSize {n i : ℕ} (hi : i < n) : i % bitsPerPage < pageSize n (i / bitsPerPage) := by
  unfold pageSize bitsPerPage
  omega

theorem div_lt_idtPages {n i : ℕ} (hi : i < n) : i / bitsPerPage < idtPages n := by
  unfold idtPages bitsPerPage
  omega

theorem mkId_inj {p p' o o' : ℕ} (ho : o < bitsPerPage) (ho' : o' < bitsPerPage) (h : mkId p o = mkId p' o') :
    p = p' ∧ o = o' := by
  unfold mkId bitsPerPage at *
  omega

theorem Idt.bit_mkId (t : Idt) {p o : ℕ} (ho : o < bitsPerPage) :
    t.bit (mkId p o) = Idt.pageBit (t.idmap p) o := by
  have hdiv : mkId p o / bitsPerPage = p := by unfold mkId bitsPerPage at *; omega
  have hmod : mkId p o % bitsPerPage = o := by unfold mkId bitsPerPage at *; omega
  rw [Idt.bit, hdiv, hmod]

theorem Idt.bit_setIdmap (t : Idt) {p o : ℕ} (m : Idmap) (b : Bool) (ho : o < bitsPerPage)
    (hm : Idt.pageBit m = Function.update (Idt.pageBit (t.idmap p)) o b) :
    (t.setIdmap p m).bit = Function.update t.bit (mkId p o) b := by
  funext i
  change Idt.pageBit (Function.update t.idmap p m (i / bitsPerPage)) (i % bitsPerPage) = _
  by_cases hp : i / bitsPerPage = p
  · rw [hp, Function.update_self, hm]
    by_cases hmod : i % bitsPerPage = o
    · have hi : i = mkId p o := by rw [← hp, ← hmod, mkId_div_mod]
      rw [hmod, Function.update_self, hi, Function.update_self]
    · have hi : i ≠ mkId p o := fun h => by
        rw [← mkId_div_mod i] at h
        exact hmod (mkId_inj (Nat.mod_lt _ (by decide)) ho h).2
      rw [Function.update_of_ne hmod, Function.update_of_ne hi, Idt.bit, hp]
  · have hi : i ≠ mkId p o := fun h => by
      rw [← mkId_div_mod i] at h
      exact hp (mkId_inj (Nat.mod_lt _ (by decide)) ho h).1
    rw [Function.update_of_ne hp, Function.update_of_ne hi, Idt.bit]

/-! ## The state of an allocator -/

/-- An allocator of `n` ids from `start` with the given bits and cursor; its counters are the numbers of clear
bits. -/
structure IdtIs (start n : ℕ) (bits : ℕ → Bool) (last : ℕ) (t : Idt) : Prop where
  offset : t.offset = start
  nrBit : t.nrBit = n
  last : t.last = last
  bit : t.bit = bits
  pageBits : ∀ p < idtPages n, (t.idmap p).nrBit = pageSize n p
  pageFree : ∀ p < idtPages n, (t.idmap p).nrFree = (clearBits (Idt.pageBit (t.idmap p)) (pageSize n p)).card
  total : t.nrFree = (clearBits bits n).card

namespace IdtIs
variable {start n last p o : ℕ} {bits : ℕ → Bool} {t : Idt}

theorem touch (h : IdtIs start n bits last t) (p : ℕ) :
    IdtIs start n bits last
      (t.setIdmap p { t.idmap p with page := some ((t.idmap p).page.getD fun _ => false) }) := by
  let m : Idmap := { t.idmap p with page := some ((t.idmap p).page.getD fun _ => false) }
  have hmap : ∀ q, (Function.update t.idmap p m q).nrBit = (t.idmap q).nrBit ∧
      (Function.update t.idmap p m q).nrFree = (t.idmap q).nrFree ∧
      Idt.pageBit (Function.update t.idmap p m q) = Idt.pageBit (t.idmap q) := fun q => by
    by_cases hq : q = p
    · subst hq
      rw [Function.update_self]
      exact ⟨rfl, rfl, rfl⟩
    · rw [Function.update_of_ne hq]
      exact ⟨rfl, rfl, rfl⟩
  refine ⟨h.offset, h.nrBit, h.last, ?_, fun q hq => ?_, fun q hq => ?_, h.total⟩
  · rw [← h.bit]
    funext i
    exact congrFun (hmap (i / bitsPerPage)).2.2 _
  · exact (hmap q).1.trans (h.pageBits q hq)
  · change (Function.update t.idmap p m q).nrFree =
      (clearBits (Idt.pageBit (Function.update t.idmap p m q)) _).card
    rw [(hmap q).2.1, (hmap q).2.2]
    exact h.pageFree q hq

/-- One bit of page `p` and the two counters change together. -/
theorem setBit (h : IdtIs start n bits last t) (hp : p < idtPages n) (ho : o < pageSize n p)
    (b : Bool) (m : Idmap)
    (t' : Idt) (last' : ℕ) (hnb : m.nrBit = (t.idmap p).nrBit)
    (hbit : Idt.pageBit m = Function.update (Idt.pageBit (t.idmap p)) o b)
    (hfree : m.nrFree = (clearBits (Function.update (Idt.pageBit (t.idmap p)) o b) (pageSize n p)).card)
    (htotal : t'.nrFree = (clearBits (Function.update bits (mkId p o) b) n).card)
    (ht' : t'.idmap = Function.update t.idmap p m) (hoff : t'.offset = t.offset) (hnr : t'.nrBit = t.nrBit)
    (hlast : t'.last = last') :
    IdtIs start n (Function.update bits (mkId p o) b) last' t' := by
  have hob : o < bitsPerPage := lt_of_lt_of_le ho (min_le_left _ _)
  refine ⟨hoff.trans h.offset, hnr.trans h.nrBit, hlast, ?_, fun q hq => ?_, fun q hq => ?_, htotal⟩
  · rw [← h.bit, ← Idt.bit_setIdmap t m b hob hbit]
    funext i
    change Idt.pageBit (t'.idmap _) _ = Idt.pageBit (Function.update t.idmap p m _) _
    rw [ht']
  · rw [ht']
    by_cases hqp : q = p
    · subst hqp
      rw [Function.update_self, hnb]
      exact h.pageBits q hq
    · rw [Function.update_of_ne hqp]
      exact h.pageBits q hq
  · rw [ht']
    by_cases hqp : q = p
    · subst hqp
      rw [Function.update_self, hbit]
      exact hfree
    · rw [Function.update_of_ne hqp]
      exact h.pageFree q hq

theorem pageBit_eq (h : IdtIs start n bits last t) (ho : o < pageSize n p) :
    Idt.pageBit (t.idmap p) o = bits (mkId p o) := by
  rw [← h.bit, t.bit_mkId (lt_of_lt_of_le ho (min_le_left _ _))]

theorem takeBit (h : IdtIs start n bits last t) (hp : p < idtPages n) (ho : o < pageSize n p)
    (hclear : bits (mkId p o) = false) {page : ℕ → Bool} (hpage : (t.idmap p).page = some page) :
    IdtIs start n (Function.update bits (mkId p o) true) (mkId p o) (takeBit t p o page) := by
  have hbits : Idt.pageBit (t.idmap p) = page := by
    unfold Idt.pageBit
    rw [hpage]
    rfl
  have hoff : Idt.pageBit (t.idmap p) o = false := (h.pageBit_eq ho).trans hclear
  let m : Idmap :=
    { t.idmap p with nrFree := (t.idmap p).nrFree - 1, page := some (Function.update page o true) }
  refine h.setBit hp ho true m _ _ rfl ?_ ?_ ?_ rfl rfl rfl rfl
  · rw [hbits]
    rfl
  · rw [card_clearBits_set ho hoff, ← h.pageFree p hp]
  · rw [card_clearBits_set (mkId_lt ho) hclear, ← h.total]
    rfl

end IdtIs

/-! ## The scan of an allocation -/

/-- The positions that `k` rounds look at, from bit `off` of page `p` on. -/
def segments (n : ℕ) : ℕ → ℕ → ℕ → List ℕ
  | 0, _, _ => []
  | k + 1, p, off =>
      List.range' (mkId p off) (pageSize n p - off) ++
        segments n k (if p < idtPages n - 1 then p + 1 else 0) 0

theorem next_page_lt {n p : ℕ} (hp : p < idtPages n) :
    (if p < idtPages n - 1 then p + 1 else 0) < idtPages n := by
  split <;> omega

theorem find?_page {n p off : ℕ} {bits page : ℕ → Bool}
    (hpage : ∀ o < pageSize n p, page o = bits (mkId p o)) :
    (List.range' (mkId p off) (pageSize n p - off)).find? bits =
      ((List.range' off (pageSize n p - off)).find? page).map (mkId p) := by
  have hmap : List.range' (mkId p off) (pageSize n p - off) =
      (List.range' off (pageSize n p - off)).map (mkId p) :=
    (List.map_add_range' _ _ _).symm
  rw [hmap, List.find?_map]
  congr 1
  refine List.find?_congr fun o ho => ?_
  have ho := List.mem_range'_1.mp ho
  rw [Function.comp_apply, hpage o (by omega)]

/-- The rounds take the first clear position of their segments, or change nothing: there is none, or
a page could not be allocated. -/
theorem idtAllocScan_cases {start n last : ℕ} {bits : ℕ → Bool} (pageOk : ℕ → Bool) :
    ∀ (rounds k : ℕ) (t : Idt) (p off : ℕ), IdtIs start n bits last t → p < idtPages n → off < pageSize n p →
      (∃ i, (segments n rounds p off).find? (fun i => !bits i) = some i ∧
        (idtAllocScan pageOk rounds k t p off).2 = (i + start : ℕ) ∧
        IdtIs start n (Function.update bits i true) i (idtAllocScan pageOk rounds k t p off).1) ∨
      (idtAllocScan pageOk rounds k t p off).2 = eNOSPC ∧
        IdtIs start n bits last (idtAllocScan pageOk rounds k t p off).1 ∧
        ((segments n rounds p off).find? (fun i => !bits i) = none ∨ ∃ k, pageOk k = false) := by
  intro rounds
  induction rounds with
  | zero =>
    intro k t p off h _ _
    exact Or.inr ⟨rfl, h, Or.inl rfl⟩
  | succ rounds ih =>
    intro k t p off h hp hoff
    let page := (t.idmap p).page.getD fun _ => false
    let t' := t.setIdmap p { t.idmap p with page := some page }
    have h' : IdtIs start n bits last t' := h.touch p
    have hmap : t'.idmap p = { t.idmap p with page := some page } := Function.update_self _ _ _
    have hpage : ∀ o < pageSize n p, page o = bits (mkId p o) := fun o ho => h.pageBit_eq ho
    -- a page whose counter is zero has no clear bit, so skipping it loses nothing
    have hfound : (if (t'.idmap p).nrFree = 0 then none else allocInPage page (t'.idmap p).nrBit 2 off) =
        (List.range' off (pageSize n p - off)).find? fun o => !page o := by
      split
      · rename_i hzero
        rw [h'.pageFree p hp, clearBits_card_eq_zero] at hzero
        refine (List.find?_eq_none.mpr fun o ho => ?_).symm
        have ho := List.mem_range'_1.mp ho
        have hset := hzero o (by omega)
        rw [h'.pageBit_eq (by omega), ← hpage o (by omega)] at hset
        rw [hset]
        decide
      · rw [h'.pageBits p hp, allocInPage_eq_find? page hoff]
    have hpages : t'.pages = idtPages n := congrArg idtPages h'.nrBit
    have hpage' : ∀ o < pageSize n p, (!page o) = !bits (mkId p o) := fun o ho => by rw [hpage o ho]
    by_cases hfail : ((t.idmap p).page.isNone && !pageOk k) = true
    · have hk : pageOk k = false := by
        rw [Bool.and_eq_true, Bool.not_eq_true'] at hfail
        exact hfail.2
      rw [idtAllocScan, if_pos hfail]
      exact Or.inr ⟨rfl, h, Or.inr ⟨k, hk⟩⟩
    rw [segments, List.find?_append, find?_page hpage']
    cases hfind : (List.range' off (pageSize n p - off)).find? fun o => !page o with
    | some o =>
      have hrun : idtAllocScan pageOk (rounds + 1) k t p off =
          (takeBit t' p o page, ((mkId p o + t'.offset : ℕ) : ℤ)) := by
        rw [idtAllocScan, if_neg hfail]
        dsimp only
        split
        · rename_i o' heq
          cases (heq.symm.trans hfound).trans hfind
          rfl
        · rename_i heq
          cases (heq.symm.trans hfound).trans hfind
      have ho := List.mem_range'_1.mp (List.mem_of_find?_eq_some hfind)
      have hclear : bits (mkId p o) = false := by
        rw [← hpage o (by omega)]
        simpa using List.find?_some hfind
      rw [hrun]
      refine Or.inl ⟨mkId p o, rfl, by rw [h'.offset], h'.takeBit hp (by omega) hclear ?_⟩
      rw [hmap]
    | none =>
      have hrun : idtAllocScan pageOk (rounds + 1) k t p off =
          idtAllocScan pageOk rounds (k + 1) t' (if p < idtPages n - 1 then p + 1 else 0) 0 := by
        rw [idtAllocScan, if_neg hfail]
        dsimp only
        split
        · rename_i o' heq
          cases (heq.symm.trans hfound).trans hfind
        · rw [← hpages]
      rw [hrun]
      exact ih (k + 1) t' _ 0 h' (next_page_lt hp) (pageSize_pos (next_page_lt hp))

/-- The positions from one of a page to the end of the range: those of the page and those of the
pages after it. -/
theorem range'_page_split {n p off : ℕ} (hp : p < idtPages n) (hoff : off < pageSize n p) :
    List.range' (mkId p off) (n - mkId p off) =
      List.range' (mkId p off) (pageSize n p - off) ++ List.range' (mkId (p + 1) 0) (n - mkId (p + 1) 0) := by
  by_cases hlast : p + 1 < idtPages n
  · have hnext : mkId (p + 1) 0 = mkId p off + (pageSize n p - off) := by
      unfold mkId pageSize idtPages bitsPerPage at *
      omega
    have hlen : n - mkId p off = pageSize n p - off + (n - mkId (p + 1) 0) := by
      have := mkId_lt hoff
      have := mkId_lt (pageSize_pos hlast)
      omega
    rw [hlen, ← List.range'_append_1, ← hnext]
  · have hn : n ≤ mkId (p + 1) 0 := by
      unfold mkId idtPages bitsPerPage at *
      omega
    have hend : n - mkId (p + 1) 0 = 0 := Nat.sub_eq_zero_of_le hn
    have hlen : n - mkId p off = pageSize n p - off := by
      clear hp hlast hend
      unfold pageSize mkId bitsPerPage at *
      omega
    rw [hend, List.range'_zero, List.append_nil, hlen]

theorem segments_tail {n : ℕ} (m : ℕ) :
    ∀ (j p off : ℕ), p + j + 1 = idtPages n → off < pageSize n p →
      segments n (j + 1 + m) p off = List.range' (mkId p off) (n - mkId p off) ++ segments n m 0 0 := by
  intro j
  induction j with
  | zero =>
    intro p off hp hoff
    have hlast : ¬ p < idtPages n - 1 := by omega
    have hend : n - mkId (p + 1) 0 = 0 := by
      unfold mkId idtPages bitsPerPage at *
      omega
    rw [Nat.zero_add, Nat.add_comm, segments, if_neg hlast, range'_page_split (by omega) hoff, hend,
      List.range'_zero,
      List.append_nil]
  | succ j ih =>
    intro p off hp hoff
    have hnext : p < idtPages n - 1 := by omega
    rw [show j + 1 + 1 + m = (j + 1 + m) + 1 by omega, segments, if_pos hnext,
      ih (p + 1) 0 (by omega) (pageSize_pos (by omega)), ← List.append_assoc,
      ← range'_page_split (by omega) hoff]

theorem page_le {n p : ℕ} (hp : p < idtPages n - 1) : (p + 1) * bitsPerPage ≤ n := by
  have hbits : 0 < bitsPerPage := by decide
  have hpages : p + 1 + 1 ≤ (n + bitsPerPage - 1) / bitsPerPage := by
    rw [idtPages] at hp
    omega
  rw [Nat.le_div_iff_mul_le hbits, Nat.succ_mul] at hpages
  omega

theorem min_sub_page (b n base : ℕ) : min b (n - base) = min (base + b) n - base := by
  omega

theorem segments_zero {n : ℕ} :
    ∀ k, k ≤ idtPages n → segments n k 0 0 = List.range (min (k * bitsPerPage) n) := by
  have hrun : ∀ (k p : ℕ), p + k ≤ idtPages n →
      segments n k p 0 = List.range' (mkId p 0) (min ((p + k) * bitsPerPage) n - mkId p 0) := by
    intro k
    induction k with
    | zero =>
      intro p hp
      have hlen : min ((p + 0) * bitsPerPage) n - mkId p 0 = 0 := by
        rw [mkId, Nat.add_zero, Nat.add_zero]
        exact Nat.sub_eq_zero_of_le (min_le_left _ _)
      rw [hlen]
      rfl
    | succ k ih =>
      intro p hp
      by_cases hnext : p < idtPages n - 1
      · have hrange : (p + 1) * bitsPerPage ≤ n := page_le hnext
        have hfull : pageSize n p = bitsPerPage := by
          rw [Nat.succ_mul] at hrange
          exact min_eq_left (by omega)
        have hstart : mkId (p + 1) 0 = mkId p 0 + bitsPerPage := by
          simp only [mkId, Nat.add_zero, Nat.succ_mul]
        have hcount : p + (k + 1) = p + 1 + k := by omega
        have hpage : (p + 1) * bitsPerPage ≤ (p + 1 + k) * bitsPerPage :=
          Nat.mul_le_mul_right _ (Nat.le_add_right _ _)
        have hlen : bitsPerPage + (min ((p + 1 + k) * bitsPerPage) n - mkId (p + 1) 0) =
            min ((p + (k + 1)) * bitsPerPage) n - mkId p 0 := by
          have hle : mkId (p + 1) 0 ≤ min ((p + 1 + k) * bitsPerPage) n := by
            rw [mkId, Nat.add_zero]
            exact le_min hpage hrange
          rw [hstart] at hle ⊢
          rw [hcount, ← Nat.sub_sub]
          exact Nat.add_sub_cancel' (Nat.le_sub_of_add_le' hle)
        rw [segments, if_pos hnext, ih (p + 1) (by omega), hfull, hstart, Nat.sub_zero,
          List.range'_append_1, ← hstart,
          hlen]
      · have hk : k = 0 := by omega
        have hlen : pageSize n p - 0 = min ((p + (0 + 1)) * bitsPerPage) n - mkId p 0 := by
          simp only [pageSize, mkId, Nat.sub_zero, Nat.add_zero, Nat.zero_add, Nat.succ_mul]
          exact min_sub_page _ _ _
        rw [hk, segments, segments, List.append_nil, hlen]
  intro k hk
  have hstart : mkId 0 0 = 0 := by rw [mkId, Nat.zero_mul]
  rw [hrun k 0 (by omega), List.range_eq_range', hstart, Nat.zero_add, Nat.sub_zero]

/-- The rounds of `idt_alloc` look at every position, going up cyclically from the cursor; an extra
round reads the first page again when the cursor is not at its start. -/
theorem segments_cyclic {n c : ℕ} (hc : c < n) (f : ℕ → Bool) :
    (segments n (idtPages n - (if c % bitsPerPage = 0 then 1 else 0) + 1) (c / bitsPerPage)
      (c % bitsPerPage)).find? f =
      (cyclicFrom n c).find? f := by
  obtain ⟨p, hp⟩ : ∃ p, c / bitsPerPage = p := ⟨_, rfl⟩
  obtain ⟨off, hoff⟩ : ∃ off, c % bitsPerPage = off := ⟨_, rfl⟩
  have hpage : p < idtPages n := hp ▸ div_lt_idtPages hc
  have hsize : off < pageSize n p := hp ▸ hoff ▸ mod_lt_pageSize hc
  have hmk : mkId p off = c := hp ▸ hoff ▸ mkId_div_mod c
  have htail := fun m => segments_tail m (idtPages n - 1 - p) p off (by omega) hsize
  rw [hmk] at htail
  rw [hp, hoff]
  by_cases hzero : off = 0
  · have hrounds : idtPages n - 1 + 1 = idtPages n - 1 - p + 1 + p := by omega
    have hbelow : min (p * bitsPerPage) n = c := by
      rw [mkId, hzero, Nat.add_zero] at hmk
      rw [hmk]
      exact min_eq_left hc.le
    rw [if_pos hzero, hrounds, htail, segments_zero _ (by omega), hbelow]
    rfl
  · have hrounds : idtPages n - 0 + 1 = idtPages n - 1 - p + 1 + (p + 1) := by omega
    obtain ⟨x, hmin⟩ : ∃ x, min ((p + 1) * bitsPerPage) n = x := ⟨_, rfl⟩
    have hx : c ≤ x ∧ x ≤ n := by
      rw [← hmin]
      refine ⟨le_min ?_ hc.le, min_le_right _ _⟩
      have hin : off ≤ bitsPerPage := (hsize.trans_le (min_le_left _ _)).le
      rw [mkId] at hmk
      rw [Nat.succ_mul, ← hmk]
      exact Nat.add_le_add_left hin _
    have hsplit : List.range x = List.range c ++ List.range' c (x - c) := by
      have h := List.range'_append_1 (s := 0) (m := c) (n := x - c)
      rw [Nat.zero_add, Nat.add_sub_cancel' hx.1] at h
      rw [List.range_eq_range', List.range_eq_range', h]
    rw [if_neg hzero, hrounds, htail, segments_zero _ (by omega), hmin, hsplit, ← List.append_assoc]
    refine find?_append_reread fun z hz => ?_
    rw [List.mem_range'_1] at hz ⊢
    omega

/-! ## The operations -/

/-- The position after the cursor. -/
def idtCursor (n last : ℕ) : ℕ := if n ≤ (last + 1) % 2 ^ 32 then 0 else (last + 1) % 2 ^ 32

theorem idtCursor_lt {n : ℕ} (last : ℕ) (hn : 0 < n) : idtCursor n last < n := by
  unfold idtCursor
  split <;> omega

/-- Whatever pages there are, an allocation takes the first free position from the cursor on, or
changes nothing. -/
theorem idtAlloc_cases {start n last : ℕ} {bits : ℕ → Bool} {t : Idt} (pageOk : ℕ → Bool) (hn : 0 < n)
    (h : IdtIs start n bits last t) :
    (∃ i, (cyclicFrom n (idtCursor n last)).find? (fun i => !bits i) = some i ∧
      (idtAlloc pageOk t).2 = (i + start : ℕ) ∧
      IdtIs start n (Function.update bits i true) i (idtAlloc pageOk t).1) ∨
    (idtAlloc pageOk t).2 = eNOSPC ∧ IdtIs start n bits last (idtAlloc pageOk t).1 ∧
      ((cyclicFrom n (idtCursor n last)).find? (fun i => !bits i) = none ∨ ∃ k, pageOk k = false) := by
  have hc := idtCursor_lt last hn
  by_cases hfree : t.nrFree = 0
  · have hrun : idtAlloc pageOk t = (t, eNOSPC) := by rw [idtAlloc, if_pos hfree]
    rw [hrun]
    refine Or.inr ⟨rfl, h, Or.inl (List.find?_eq_none.mpr fun i hi => ?_)⟩
    rw [h.total, clearBits_card_eq_zero] at hfree
    rw [hfree i ((mem_cyclicFrom hc.le).mp hi)]
    decide
  · have hrun : idtAlloc pageOk t = idtAllocScan pageOk
        (idtPages n - (if idtCursor n last % bitsPerPage = 0 then 1 else 0) + 1) 0 t
        (idtCursor n last / bitsPerPage) (idtCursor n last % bitsPerPage) := by
      rw [idtAlloc, if_neg hfree, idtCursor, ← h.nrBit, ← h.last]
      rfl
    rw [hrun, ← segments_cyclic hc]
    exact idtAllocScan_cases pageOk _ 0 t _ _ h (div_lt_idtPages hc) (mod_lt_pageSize hc)

theorem idtAlloc_spec {start n last : ℕ} {bits : ℕ → Bool} {t : Idt} {pageOk : ℕ → Bool}
    (hok : ∀ k, pageOk k = true)
    (hn : 0 < n) (h : IdtIs start n bits last t) :
    (∀ i, (cyclicFrom n (idtCursor n last)).find? (fun i => !bits i) = some i →
      (idtAlloc pageOk t).2 = (i + start : ℕ) ∧
        IdtIs start n (Function.update bits i true) i (idtAlloc pageOk t).1) ∧
    ((cyclicFrom n (idtCursor n last)).find? (fun i => !bits i) = none →
      (idtAlloc pageOk t).2 = eNOSPC ∧ IdtIs start n bits last (idtAlloc pageOk t).1) := by
  obtain ⟨i, hfind, htaken⟩ | ⟨hout, hsame, hfull⟩ := idtAlloc_cases pageOk hn h
  · rw [hfind]
    refine ⟨fun j hj => ?_, fun hnone => by cases hnone⟩
    cases hj
    exact htaken
  · have hnone := hfull.resolve_right fun ⟨k, hk⟩ => Bool.false_ne_true (hk.symm.trans (hok k))
    rw [hnone]
    exact ⟨(fun j hj => by cases hj), fun _ => ⟨hout, hsame⟩⟩

theorem checkIdt_iff {start n last : ℕ} {bits : ℕ → Bool} {t : Idt} (h : IdtIs start n bits last t) (id : ℤ) :
    checkIdt t id = true ↔ ∃ i < n, id = start + i := by
  rw [checkIdt, decide_eq_true_eq, h.offset, h.nrBit]
  constructor
  · intro hid
    exact ⟨(id - start).toNat, by omega, by omega⟩
  · rintro ⟨i, hi, rfl⟩
    omega

section Remove
variable {start n last i : ℕ} {bits : ℕ → Bool} {t : Idt}

/-- Where a removal in ring mode leaves the cursor. -/
def lastAfter (ring : Bool) (last i : ℕ) : ℕ :=
  if ring && decide (i ≤ last ∧ last ≠ u32Max) then (i + u32Max) % 2 ^ 32 else last

theorem idtRemove'_used (ring : Bool) (h : IdtIs start n bits last t) (hi : i < n) (hset : bits i = true) :
    (idtRemove' ring t (start + i)).2 = true ∧
      IdtIs start n (Function.update bits i false) (lastAfter ring last i)
        (idtRemove' ring t (start + i)).1 := by
  have hcheck : checkIdt t (start + i) = true := (checkIdt_iff h _).mpr ⟨i, hi, rfl⟩
  have hidx : ((start : ℤ) + i - t.offset).toNat = i := by
    rw [h.offset]
    omega
  have hsize := mod_lt_pageSize hi
  have hpage := div_lt_idtPages hi
  have hbit : Idt.pageBit (t.idmap (i / bitsPerPage)) (i % bitsPerPage) = true := by
    rw [h.pageBit_eq hsize, mkId_div_mod, hset]
  cases hp : (t.idmap (i / bitsPerPage)).page with
  | none =>
    unfold Idt.pageBit at hbit
    rw [hp] at hbit
    cases hbit
  | some page =>
    have hpageBit : Idt.pageBit (t.idmap (i / bitsPerPage)) = page := by
      unfold Idt.pageBit
      rw [hp]
      rfl
    have hsetp : page (i % bitsPerPage) = true := by rw [← hpageBit, hbit]
    let m : Idmap :=
      { t.idmap (i / bitsPerPage) with
        nrFree := (t.idmap (i / bitsPerPage)).nrFree + 1
        page := some (Function.update page (i % bitsPerPage) false) }
    let t' : Idt := { t.setIdmap (i / bitsPerPage) m with
      nrFree := t.nrFree + 1
      last := lastAfter ring t.last i }
    have hrun : idtRemove' ring t (start + i) = (t', true) := by
      unfold idtRemove'
      rw [hcheck]
      simp only [Bool.not_true, Bool.false_eq_true, ↓reduceIte, hidx, hp, hsetp]
      rfl
    have hmk := mkId_div_mod i
    have hafter := h.setBit hpage hsize false m t' (lastAfter ring last i) rfl (by rw [hpageBit]; rfl)
      (by rw [card_clearBits_clear hsize hbit, ← h.pageFree _ hpage])
      (by rw [hmk, card_clearBits_clear hi hset, ← h.total]) rfl rfl rfl (by rw [← h.last])
    rw [hmk] at hafter
    rw [hrun]
    exact ⟨rfl, hafter⟩

theorem idtRemove_used (h : IdtIs start n bits last t) (hi : i < n) (hset : bits i = true) :
    (idtRemove t (start + i)).2 = true ∧
      IdtIs start n (Function.update bits i false) last (idtRemove t (start + i)).1 :=
  idtRemove'_used false h hi hset

theorem idtRemove'_free (ring : Bool) (h : IdtIs start n bits last t) {id : ℤ}
    (hfree : ∀ i < n, id = start + i → bits i = false) : idtRemove' ring t id = (t, false) := by
  unfold idtRemove'
  by_cases hcheck : checkIdt t id = true
  · obtain ⟨i, hi, rfl⟩ := (checkIdt_iff h id).mp hcheck
    have hidx : ((start : ℤ) + i - t.offset).toNat = i := by
      rw [h.offset]
      omega
    have hbit : Idt.pageBit (t.idmap (i / bitsPerPage)) (i % bitsPerPage) = false := by
      rw [h.pageBit_eq (mod_lt_pageSize hi), mkId_div_mod, hfree i hi rfl]
    unfold Idt.pageBit at hbit
    rw [hcheck]
    cases hp : (t.idmap (i / bitsPerPage)).page with
    | none => simp only [Bool.not_true, Bool.false_eq_true, ↓reduceIte, hidx, hp]
    | some page =>
      rw [hp] at hbit
      have hclear : page (i % bitsPerPage) = false := hbit
      simp only [Bool.not_true, Bool.false_eq_true, ↓reduceIte, hidx, hp, hclear, Bool.not_false]
  · rw [Bool.not_eq_true] at hcheck
    rw [hcheck]
    rfl

theorem idtRemove_free (h : IdtIs start n bits last t) {id : ℤ}
    (hfree : ∀ i < n, id = start + i → bits i = false) :
    idtRemove t id = (t, false) := idtRemove'_free false h hfree

end Remove

/-- The pages from `p` on are searched for the first set position. -/
theorem idtNextScan_eq {start n last : ℕ} {bits : ℕ → Bool} {t : Idt} (h : IdtIs start n bits last t) :
    ∀ (k p off : ℕ), p + k = idtPages n → (0 < k → off < pageSize n p) → idtNextScan t k p off =
      (((List.range' (mkId p off) (n - mkId p off)).find? bits).map fun i =>
        ((i + start : ℕ) : ℤ)).getD eNOENT := by
  intro k
  induction k with
  | zero =>
    intro p off hp _
    have hend : n - mkId p off = 0 := by
      unfold mkId idtPages bitsPerPage at *
      omega
    rw [hend]
    rfl
  | succ k ih =>
    intro p off hp hoff
    have hoff := hoff (Nat.succ_pos k)
    have hlt : p < idtPages n := by omega
    have hbits : ∀ o < pageSize n p, Idt.pageBit (t.idmap p) o = bits (mkId p o) :=
      fun o ho => h.pageBit_eq ho
    have hrest := ih (p + 1) 0 (by omega) (fun hk => pageSize_pos (by omega))
    rw [range'_page_split hlt hoff, List.find?_append, find?_page hbits, findNextBit_find?, idtNextScan]
    unfold Idt.pageBit
    cases hpage : (t.idmap p).page with
    | none =>
      have hnone : ¬ findNextBit (fun _ => false) (pageSize n p) off < pageSize n p := fun hlt => by
        have hsome := (findNextBit_find? (f := fun _ => false)).trans (if_pos hlt)
        cases List.find?_some hsome
      change idtNextScan t k (p + 1) 0 = _
      rw [hrest]
      change _ = Option.getD (Option.map _ (Option.or (Option.map _
        (if findNextBit (fun _ => false) (pageSize n p) off < pageSize n p then _ else _)) _)) _
      rw [if_neg hnone]
      rfl
    | some page =>
      change (if findNextBit page (t.idmap p).nrBit off < (t.idmap p).nrBit then
        ((mkId p (findNextBit page (t.idmap p).nrBit off) + t.offset : ℕ) : ℤ)
        else idtNextScan t k (p + 1) 0) = _
      rw [h.pageBits p hlt, h.offset, hrest]
      change _ = Option.getD (Option.map _ (Option.or (Option.map _
        (if findNextBit page (pageSize n p) off < pageSize n p then _ else _)) _)) _
      split
      · rfl
      · rfl

theorem idtNext_spec {start n last i : ℕ} {bits : ℕ → Bool} {t : Idt}
    (h : IdtIs start n bits last t) (hi : i < n) :
    idtNext t (start + i) =
      (((List.range' i (n - i)).find? bits).map fun i => ((i + start : ℕ) : ℤ)).getD eNOENT := by
  have hcheck : checkIdt t (start + i) = true := (checkIdt_iff h _).mpr ⟨i, hi, rfl⟩
  have hidx : ((start : ℤ) + i - t.offset).toNat = i := by
    rw [h.offset]
    omega
  have hpages : t.pages = idtPages n := congrArg idtPages h.nrBit
  have hpage := div_lt_idtPages hi
  rw [idtNext, hcheck, Bool.not_true, if_neg Bool.false_ne_true]
  dsimp only
  rw [hidx, hpages,
    idtNextScan_eq h _ _ _ (Nat.add_sub_cancel' hpage.le) (fun _ => mod_lt_pageSize hi),
    mkId_div_mod]

end Skp.Adt
