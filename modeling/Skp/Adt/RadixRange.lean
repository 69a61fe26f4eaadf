import Skp.Adt.RadixScan
import Skp.Adt.RadixTagRuns

/-! # Range lookups, iteration and release against the map -/
namespace Skp.Adt
set_option autoImplicit false
open Skp.Foundations

variable {V : Type}

/-! ## The gang loop -/

/-- A gang lookup of `maxItems` from `start`: the first items from there, what remains from the
returned index on, and where it stands when the wanted number was found. -/
structure GangOk (F : ℕ → Option V) (maxItems start : ℕ) (r : List V × BitVec 64) : Prop where
  found : r.1 = (between F start (2 ^ 64)).take maxItems
  rest : (if r.2 = 0 then [] else between F r.2.toNat (2 ^ 64)) = (between F start (2 ^ 64)).drop maxItems
  upto : r.2 ≠ 0 → start ≤ r.2.toNat ∧ r.1 = between F start r.2.toNat
  full : r.1.length = maxItems → start < stopPos r.2 ∧ r.1 = between F start (stopPos r.2) ∧
    F (stopPos r.2 - 1) ≠ none

section Gang
variable {F : ℕ → Option V} {look : ℕ → BitVec 64 → Except RadixFault (BitVec 64 × List V)}
    {maxIndex : BitVec 64}
  {maxItems start : ℕ}

theorem gangLoop_ok (hlook : ∀ n cur, 0 < n → ¬ maxIndex < cur → ∃ r, look n cur = .ok r ∧
      ScanRoundOk F n cur.toNat r)
    (habove : ∀ i : BitVec 64, maxIndex < i → F i.toNat = none) (hmax : 0 < maxItems) (rounds : ℕ)
    {cur next : BitVec 64} {results : List V} (hrounds : 2 ^ 64 < cur.toNat + rounds)
    (hstart : start ≤ cur.toNat)
    (hres : results = between F start cur.toNat) (hlen : results.length ≤ maxItems)
    (hnext : next = cur ∧ next ≠ 0 ∨ next = 0 ∧ results = [])
    (hfull : results.length = maxItems → start < cur.toNat ∧ F (cur.toNat - 1) ≠ none) :
    ∃ r, gangLoop look maxIndex maxItems rounds cur next results = .ok r ∧ GangOk F maxItems start r := by
  induction rounds generalizing cur next results with
  | zero =>
    have hcur := cur.isLt
    omega
  | succ rounds ih =>
    have hsplit : between F start (2 ^ 64) = results ++ between F cur.toNat (2 ^ 64) := by
      rw [hres, between_append hstart cur.isLt.le]
    rw [gangLoop]
    by_cases hdone : maxItems ≤ results.length ∨ maxIndex < cur
    · rw [if_pos hdone]
      have hrest : results.length = maxItems ∨ between F cur.toNat (2 ^ 64) = [] := by
        refine hdone.imp (le_antisymm hlen) fun hgt => between_eq_nil.mpr fun m hm hm64 => ?_
        have hto : (BitVec.ofNat 64 m).toNat = m := by rw [BitVec.toNat_ofNat, Nat.mod_eq_of_lt hm64]
        rw [← hto]
        refine habove _ (BitVec.lt_def.mpr ?_)
        have hlt := BitVec.lt_def.mp hgt
        omega
      obtain ⟨htake, hdrop⟩ := take_drop_of_prefix hlen hrest
      refine ⟨_, rfl, by rw [hsplit]; exact htake.symm, ?_, fun hne => ?_, fun hlen => ?_⟩
      · rw [hsplit, hdrop]
        obtain ⟨rfl, hne⟩ | ⟨rfl, hnil⟩ := hnext
        · exact if_neg hne
        · rw [if_pos rfl]
          refine (hrest.resolve_left fun heq => ?_).symm
          rw [hnil] at heq
          exact hmax.ne heq
      · obtain ⟨rfl, -⟩ | ⟨h0, -⟩ := hnext
        · exact ⟨hstart, hres⟩
        · exact absurd h0 hne
      · obtain ⟨rfl, hne⟩ | ⟨-, hnil⟩ := hnext
        · change start < stopPos next ∧ results = between F start (stopPos next) ∧ F (stopPos next - 1) ≠ none
          rw [stopPos_of_ne hne]
          exact ⟨(hfull hlen).1, hres, (hfull hlen).2⟩
        · change results.length = maxItems at hlen
          rw [hnil] at hlen
          exact absurd hlen hmax.ne
    · rw [if_neg hdone]
      have hshort : results.length < maxItems := by
        by_contra hge
        exact hdone (Or.inl (by omega))
      obtain ⟨⟨next, found⟩, hrun, hround⟩ :=
        hlook (maxItems - results.length) cur (by omega) fun hgt => hdone (Or.inr hgt)
      rw [hrun]
      have hlt : cur.toNat < stopPos next := hround.lt
      have hmore : results ++ found = between F start (stopPos next) := by
        have hfound : found = between F cur.toNat (stopPos next) := hround.found
        rw [hres, ← between_append hstart hlt.le, hfound]
      have hle : (results ++ found).length ≤ maxItems := by
        have hfound := hround.le
        dsimp only at hfound
        rw [List.length_append]
        omega
      have hlast : (results ++ found).length = maxItems → F (stopPos next - 1) ≠ none := by
        intro heq
        rw [List.length_append] at heq
        refine hround.full ?_
        dsimp only
        omega
      dsimp only
      split
      · rename_i h0
        have hstop : stopPos next = 2 ^ 64 := if_pos h0
        rw [hstop] at hmore
        refine ⟨_, rfl, ?_, ?_, fun hne => absurd h0 hne, fun heq => ?_⟩
        · rw [← hmore]
          exact (List.take_of_length_le hle).symm
        · rw [← hmore, if_pos h0]
          exact (List.drop_of_length_le hle).symm
        · change start < stopPos next ∧ results ++ found = between F start (stopPos next) ∧
            F (stopPos next - 1) ≠ none
          rw [hstop]
          rw [hstop] at hlast
          exact ⟨by omega, hmore, hlast heq⟩
      · rename_i hne
        rw [stopPos_of_ne hne] at hmore hlast hlt
        exact ih (by omega) (by omega) hmore hle (Or.inl ⟨rfl, hne⟩) fun heq => ⟨by omega, hlast heq⟩

theorem gangLookup_ok {height rounds : ℕ} (hh : height ≤ 11)
    (hlook : ∀ n cur, 0 < n → cur.toNat < 64 ^ height → ∃ r, look n cur = .ok r ∧ ScanRoundOk F n cur.toNat r)
    (habove : ∀ i : BitVec 64, ¬ i.toNat < 64 ^ height → F i.toNat = none)
    (hrounds : 2 ^ 64 < rounds) (hmax : 0 < maxItems)
    (first : BitVec 64) :
    ∃ r, gangLookup look height rounds first maxItems = .ok r ∧ GangOk F maxItems first.toNat r := by
  have hindex : heightToMaxindex height = .ok (rdtreeMaxindex height) := if_pos (by omega)
  rw [gangLookup, hindex]
  refine gangLoop_ok (fun n cur hn hcur => hlook n cur hn (not_maxindex_lt.mp hcur))
    (fun i hi => habove i fun hlt => not_maxindex_lt.mpr hlt hi) hmax rounds (by omega) le_rfl
    (between_of_le le_rfl).symm (Nat.zero_le _) (Or.inr ⟨rfl, rfl⟩) fun heq => absurd heq hmax.ne

theorem gangLookup_zero {height rounds : ℕ} (hh : height ≤ 11) (first : BitVec 64) :
    gangLookup look height (rounds + 1) first 0 = .ok ([], 0) := by
  have hindex : heightToMaxindex height = .ok (rdtreeMaxindex height) := if_pos (by omega)
  rw [gangLookup, hindex]
  change gangLoop look (rdtreeMaxindex height) 0 (rounds + 1) first 0 [] = _
  rw [gangLoop, if_pos (Or.inl (Nat.zero_le _))]

end Gang

/-! ## Iteration -/

section Iteration
variable {E : ℕ → Option (BitVec 64 × V)} {gang : BitVec 64 → ℕ → Except RadixFault (List V × BitVec 64)}

/-- What an iterator still has to visit. -/
def pending (E : ℕ → Option (BitVec 64 × V)) (it : RadixIter) : List (BitVec 64 × V) :=
  if it.nextIndex = 0 ∧ it.index ≠ 0 then [] else between E it.nextIndex.toNat (2 ^ 64)

/-- Entries carry the index they stand at. -/
def Indexed (E : ℕ → Option (BitVec 64 × V)) : Prop := ∀ n < 2 ^ 64, ∀ e, E n = some e → e.1.toNat = n

theorem stopPos_sub_one (x : BitVec 64) : (x - 1).toNat = stopPos x - 1 := by
  unfold stopPos
  rw [BitVec.toNat_sub]
  have hx := x.isLt
  split
  · rename_i h0
    rw [h0]
    rfl
  · rename_i h0
    have hne : x.toNat ≠ 0 := fun h => h0 (BitVec.eq_of_toNat_eq h)
    change (2 ^ 64 - 1 + x.toNat) % 2 ^ 64 = _
    omega

theorem iterNext_done (hgang : ∀ start : BitVec 64, ∃ r, gang start 1 = .ok r ∧
      GangOk (fun n => (E n).map Prod.snd) 1 start.toNat r) {it : RadixIter} (hp : pending E it = []) :
    ∃ it', iterNext gang it = .ok (it', none) := by
  unfold iterNext
  unfold pending at hp
  split at hp
  · rename_i hend
    exact ⟨it, if_pos hend⟩
  · rename_i hgo
    rw [if_neg hgo]
    obtain ⟨⟨found, next⟩, hrun, hok⟩ := hgang it.nextIndex
    have hfound : found = [] := by
      have htake := hok.found
      rw [← map_between, hp] at htake
      exact htake
    rw [hrun, hfound]
    exact ⟨_, rfl⟩

theorem iterNext_visit (hE : Indexed E) (hgang : ∀ start : BitVec 64, ∃ r, gang start 1 = .ok r ∧
      GangOk (fun n => (E n).map Prod.snd) 1 start.toNat r) {it : RadixIter} {e : BitVec 64 × V}
    {rest : List (BitVec 64 × V)} (hp : pending E it = e :: rest) :
    ∃ it', iterNext gang it = .ok (it', some e.2) ∧ it'.index = e.1 ∧ pending E it' = rest ∧
      stopPos it'.nextIndex = e.1.toNat + 1 := by
  unfold pending at hp
  split at hp
  · cases hp
  · rename_i hgo
    obtain ⟨⟨found, next⟩, hrun, hok⟩ := hgang it.nextIndex
    have hfound : found = [e.2] := by
      have htake := hok.found
      rw [← map_between, hp] at htake
      exact htake
    obtain ⟨hlt, hupto, hlast⟩ := hok.full (by rw [hfound]; rfl)
    change it.nextIndex.toNat < stopPos next at hlt
    change found = between _ _ (stopPos next) at hupto
    change Option.map Prod.snd (E (stopPos next - 1)) ≠ none at hlast
    have hsplit := between_append (f := E) hlt.le (stopPos_le next)
    rw [hp] at hsplit
    -- up to where the lookup stopped there is one entry, and it is the one just before
    have hone : between E it.nextIndex.toNat (stopPos next) = [e] := by
      have hlen : (between E it.nextIndex.toNat (stopPos next)).length = 1 := by
        rw [← List.length_map Prod.snd, map_between, ← hupto, hfound]
        rfl
      obtain ⟨x, hx⟩ := List.length_eq_one_iff.mp hlen
      rw [hx] at hsplit ⊢
      rw [(List.cons.inj hsplit).1]
    have hrest : between E (stopPos next) (2 ^ 64) = rest := by
      rw [hone] at hsplit
      exact (List.cons.inj hsplit).2
    have hindex : e.1.toNat = stopPos next - 1 := by
      have hsome : E (stopPos next - 1) ≠ none := fun hn => hlast (by rw [hn]; rfl)
      obtain ⟨e', he'⟩ := Option.ne_none_iff_exists'.mp hsome
      have hle := stopPos_le next
      have hmem : e' ∈ between E it.nextIndex.toNat (stopPos next) :=
        mem_between.mpr ⟨stopPos next - 1, by omega, by omega, he'⟩
      rw [hone, List.mem_singleton] at hmem
      rw [← hmem]
      exact hE _ (by omega) _ he'
    have hpos := stopPos_pos next
    refine ⟨{ index := next - 1, nextIndex := next }, ?_, ?_, ?_, by change stopPos next = _; omega⟩
    · rw [iterNext, if_neg hgo, hrun, hfound]
    · exact BitVec.eq_of_toNat_eq ((stopPos_sub_one next).trans hindex.symm)
    · rw [← hrest]
      unfold pending
      by_cases h0 : next = 0
      · rw [if_pos ⟨h0, by rw [h0]; decide⟩, stopPos, if_pos h0, between_of_le le_rfl]
      · rw [if_neg fun h => h0 h.1, stopPos_of_ne h0]

theorem forEachLoop_ok (hE : Indexed E) (hgang : ∀ start : BitVec 64, ∃ r, gang start 1 = .ok r ∧
      GangOk (fun n => (E n).map Prod.snd) 1 start.toNat r) (items : List (BitVec 64 × V))
        {it : RadixIter} {rounds : ℕ}
    (hp : pending E it = items) (hrounds : items.length < rounds) :
    forEachLoop (iterNext gang) rounds it = .ok items := by
  induction items generalizing it rounds with
  | nil =>
    obtain ⟨rounds, rfl⟩ := Nat.exists_eq_add_of_lt hrounds
    obtain ⟨it', hstep⟩ := iterNext_done hgang hp
    rw [forEachLoop, hstep]
  | cons e items ih =>
    obtain ⟨rounds, rfl⟩ : ∃ n, rounds = n + 1 := ⟨rounds - 1, by omega⟩
    obtain ⟨it', hstep, hindex, hp', -⟩ := iterNext_visit hE hgang hp
    rw [forEachLoop, hstep]
    dsimp only
    rw [ih hp' (Nat.lt_of_succ_lt_succ hrounds), hindex]
    rfl

theorem length_pending (it : RadixIter) : (pending E it).length ≤ 2 ^ 64 := by
  unfold pending
  split
  · exact Nat.zero_le _
  · refine (List.length_filterMap_le _ _).trans ?_
    rw [List.length_range']
    omega

end Iteration

/-! ## The entries of the map -/

/-- The entry of the map at a position, for the indices in `p`. -/
def entryAt (m : RadixMap V) (p : BitVec 64 → Bool) (n : ℕ) : Option (BitVec 64 × V) :=
  if p (BitVec.ofNat 64 n) then (m.lookup (BitVec.ofNat 64 n)).map fun v => (BitVec.ofNat 64 n, v) else none

/-- The items with an index in `p` and at least `start`, with their indices, in ascending order. -/
def itemsFrom (m : RadixMap V) (p : BitVec 64 → Bool) (start : BitVec 64) : List (BitVec 64 × V) :=
  between (entryAt m p) start.toNat (2 ^ 64)

def allIndices : BitVec 64 → Bool := fun _ => true

section Entries
variable {m : RadixMap V} {p : BitVec 64 → Bool}

theorem entryAt_toNat (i : BitVec 64) :
    entryAt m p i.toNat = if p i then (m.lookup i).map fun v => (i, v) else none := by
  rw [entryAt, BitVec.ofNat_toNat, BitVec.setWidth_eq]

theorem entryAt_indexed : Indexed (entryAt m p) := by
  intro n hn e he
  have hto : (BitVec.ofNat 64 n).toNat = n := by rw [BitVec.toNat_ofNat, Nat.mod_eq_of_lt hn]
  rw [← hto, entryAt_toNat] at he
  split at he
  · obtain ⟨v, -, rfl⟩ := Option.map_eq_some_iff.mp he
    exact hto
  · cases he

theorem mem_itemsFrom {start : BitVec 64} {e : BitVec 64 × V} :
    e ∈ itemsFrom m p start ↔ start ≤ e.1 ∧ p e.1 = true ∧ m.lookup e.1 = some e.2 := by
  rw [itemsFrom, mem_between, BitVec.le_def]
  constructor
  · rintro ⟨n, hn, hn64, he⟩
    have hindex := entryAt_indexed n hn64 e he
    rw [← hindex, entryAt_toNat] at he
    split at he
    · rename_i hp
      obtain ⟨v, hv, heq⟩ := Option.map_eq_some_iff.mp he
      exact ⟨by omega, hp, hv.trans (congrArg (fun e : BitVec 64 × V => some e.2) heq)⟩
    · cases he
  · rintro ⟨hle, hp, hv⟩
    refine ⟨e.1.toNat, hle, e.1.isLt, ?_⟩
    rw [entryAt_toNat, if_pos hp, hv]
    rfl

theorem itemsFrom_ascending (start : BitVec 64) : (itemsFrom m p start).Pairwise fun e e' => e.1 < e'.1 := by
  refine pairwise_between fun n _ k hlt hk e he e' he' => BitVec.lt_def.mpr ?_
  rw [entryAt_indexed n (hlt.trans hk) e he, entryAt_indexed k hk e' he']
  exact hlt

theorem entryAt_value (i : BitVec 64) :
    (entryAt m p i.toNat).map Prod.snd = if p i then m.lookup i else none := by
  rw [entryAt_toNat]
  split
  · cases m.lookup i with
    | none => rfl
    | some v => rfl
  · rfl

end Entries

/-! ## The lookups of a tree -/

section Lookups
variable {root : RadixRoot V} {a : TaggedMap V} {rounds maxItems : ℕ}

theorem RadixRefines.walk_value {m : RadixMap V} (h : RadixRefines root m) {i : BitVec 64}
    (hlt : i.toNat < 64 ^ root.height) : m.lookup i = (walkSlot i root.height root.rnode).value := by
  rw [← h.lookup i, radixTreeLookup, if_neg (not_maxindex_lt.mpr hlt)]

theorem RadixRefines.lookup_above {m : RadixMap V} (h : RadixRefines root m) {i : BitVec 64}
    (hge : ¬ i.toNat < 64 ^ root.height) : m.lookup i = none := by
  rw [← h.lookup i, radixTreeLookup, if_pos (not_not.mp fun hn => hge (not_maxindex_lt.mp hn))]

theorem round_empty {m : RadixMap V} (h : RadixRefines root m) (h0 : root.height = 0)
    {p : BitVec 64 → Bool} {n : ℕ}
    (hn : 0 < n) {cur : BitVec 64} (hcur : cur.toNat < 64 ^ root.height) :
    ScanRoundOk (fun k => (entryAt m p k).map Prod.snd) n cur.toNat (cur, ([] : List V)) := by
  have hnull := eq_null_of_isNull (h.empty.mpr h0)
  rw [h0, pow_zero, Nat.lt_one_iff] at hcur
  have hcur0 : cur = 0 := BitVec.eq_of_toNat_eq hcur
  refine .none_found hn ?_ (between_eq_nil.mpr fun k _ hk => ?_)
  · rw [stopPos, if_pos hcur0]
    exact cur.isLt
  · have hk64 : k < 2 ^ 64 := hk.trans_le (stopPos_le cur)
    have hto : (BitVec.ofNat 64 k).toNat = k := by rw [BitVec.toNat_ofNat, Nat.mod_eq_of_lt hk64]
    have hnone : m.lookup (BitVec.ofNat 64 k) = none := by
      rw [← h.lookup, radixTreeLookup, hnull, walkSlot_null]
      exact ite_self none
    rw [← hto, entryAt_value, hnone]
    exact ite_self none

theorem gang_ok {m : RadixMap V} (h : RadixRefines root m) (hrounds : 2 ^ 64 < rounds) (hmax : 0 < maxItems)
    (first : BitVec 64) : ∃ r, radixTreeGangLookup root rounds first maxItems = .ok r ∧
      GangOk (fun n => (entryAt m allIndices n).map Prod.snd) maxItems first.toNat r := by
  refine gangLookup_ok h.height_le (fun n cur hn hcur => ?_) (fun i hi => ?_) hrounds hmax first
  · by_cases h0 : root.height = 0
    · refine ⟨(cur, []), ?_, round_empty h h0 hn hcur⟩
      rw [h0]
      rfl
    · have hs : root.rnode.isNull = false := Bool.eq_false_iff.mpr fun hn => h0 (h.empty.mp hn)
      obtain ⟨r, hr, hround, -⟩ :=
        lookupWalk_round (F := fun n => (entryAt m allIndices n).map Prod.snd) hn h0
        h.height_le h.wf hs fun i hi => by
          rw [Nat.div_eq_of_lt hcur, Nat.div_eq_zero_iff_lt (by positivity)] at hi
          rw [entryAt_value, ← h.walk_value hi]
          rfl
      exact ⟨r, hr, hround⟩
  · rw [entryAt_value, h.lookup_above hi]
    exact ite_self none

def taggedIndices (a : TaggedMap V) (tag : Fin 3) : BitVec 64 → Bool := fun i => decide (i ∈ a.tags tag)

theorem gangTag_ok (h : RadixTagRefines root a) (tag : Fin 3) (hrounds : 2 ^ 64 < rounds)
    (hmax : 0 < maxItems)
    (first : BitVec 64) : ∃ r, radixTreeGangLookupTag root tag rounds first maxItems = .ok r ∧
      GangOk (fun n => (entryAt a.map (taggedIndices a tag) n).map Prod.snd) maxItems first.toNat r := by
  refine gangLookup_ok h.base.height_le (fun n cur hn hcur => ?_) (fun i hi => ?_) hrounds hmax first
  · by_cases h0 : root.height = 0
    · refine ⟨(cur, []), ?_, round_empty h.base h0 hn hcur⟩
      rw [h0]
      rfl
    · have hs : root.rnode.isNull = false := Bool.eq_false_iff.mpr fun hn => h0 (h.base.empty.mp hn)
      have hlt : ∀ i, i ∈ a.tags tag → i.toNat < 64 ^ root.height :=
        fun i hi => h.base.lt_of_mem (h.present tag i hi)
      obtain ⟨r, hr, hround, -⟩ := lookupTagWalk_round
        (F := fun n => (entryAt a.map (taggedIndices a tag) n).map Prod.snd) hn h0 h.base.height_le
          h.base.wf hs (h.bits tag)
        (fun i hi => by rw [Nat.div_eq_of_lt hcur, Nat.div_eq_of_lt (hlt i hi)])
        (fun i hi => by
          rw [entryAt_value, taggedIndices, if_pos (decide_eq_true hi), h.base.walk_value (hlt i hi)])
        (fun i _ hi => by
          rw [entryAt_value, taggedIndices, if_neg (by rw [decide_eq_false hi]; exact Bool.false_ne_true)])
      exact ⟨r, hr, hround⟩
  · rw [entryAt_value, h.base.lookup_above hi]
    exact ite_self none

end Lookups

/-! ## Release -/

section Release
variable {root : RadixRoot V} {m : RadixMap V} {rounds : ℕ}

theorem RadixRefines.isNull_of_empty (h : RadixRefines root ∅) : root.rnode.isNull = true := by
  cases hn : root.rnode.isNull with
  | true => rfl
  | false =>
    have hpos := items_pos h.wf hn
    rw [h.items] at hpos
    exact absurd hpos (lt_irrefl 0)

theorem pending_erase {i : BitVec 64} {it : RadixIter} (hindex : it.index = i)
    (hnext : stopPos it.nextIndex = i.toNat + 1) :
    pending (entryAt (m.erase i) allIndices) it = pending (entryAt m allIndices) it := by
  unfold pending
  split
  · rfl
  · rename_i hgo
    have hne : it.nextIndex ≠ 0 := by
      intro h0
      refine hgo ⟨h0, fun hzero => ?_⟩
      rw [← hindex, hzero, stopPos, if_pos h0] at hnext
      cases hnext
    rw [stopPos_of_ne hne] at hnext
    refine between_congr fun n hn hn64 => ?_
    have hto : (BitVec.ofNat 64 n).toNat = n := by rw [BitVec.toNat_ofNat, Nat.mod_eq_of_lt hn64]
    have hother : BitVec.ofNat 64 n ≠ i := by
      intro heq
      rw [heq] at hto
      omega
    rw [entryAt, entryAt, Finmap.lookup_erase_ne hother]

theorem releaseLoop_ok [DecidableEq V] (hrounds : 2 ^ 64 < rounds) (items : List (BitVec 64 × V))
    {it : RadixIter} {n : ℕ}
    (h : RadixRefines root m) (hp : pending (entryAt m allIndices) it = items)
    (hcover : ∀ i ∈ m, ∃ v, (i, v) ∈ items)
    (hvalue : ∀ e ∈ items, m.lookup e.1 = some e.2) (hnodup : (items.map Prod.fst).Nodup)
    (hn : items.length < n) :
    ∃ root', releaseLoop rounds n root it = .ok (root', items) ∧ RadixRefines root' ∅ := by
  induction items generalizing root m it n with
  | nil =>
    obtain ⟨n, rfl⟩ : ∃ k, n = k + 1 := ⟨n - 1, by omega⟩
    obtain ⟨it', hstep⟩ := iterNext_done (gang_ok h hrounds Nat.one_pos) hp
    have hempty : m = ∅ := by
      apply Finmap.ext_lookup
      intro i
      rw [Finmap.lookup_empty, Finmap.lookup_eq_none]
      intro hi
      obtain ⟨v, hv⟩ := hcover i hi
      cases hv
    rw [hempty] at h
    refine ⟨root, ?_, h⟩
    rw [releaseLoop, radixTreeIterNext, hstep]
    exact if_pos h.isNull_of_empty
  | cons e items ih =>
    obtain ⟨n, rfl⟩ : ∃ k, n = k + 1 := ⟨n - 1, by omega⟩
    obtain ⟨it', hstep, hindex, hp', hnext⟩ :=
      iterNext_visit entryAt_indexed (gang_ok h hrounds Nat.one_pos) hp
    obtain ⟨hout, hdel⟩ := radixTreeDelete_present h (hvalue e List.mem_cons_self)
    rw [List.map_cons, List.nodup_cons] at hnodup
    have hne : ∀ e' ∈ items, e'.1 ≠ e.1 := fun e' he' heq => hnodup.1 (heq ▸ List.mem_map_of_mem he')
    have hcover' : ∀ i ∈ m.erase e.1, ∃ v, (i, v) ∈ items := by
      intro i hi
      obtain ⟨hi1, hi2⟩ := Finmap.mem_erase.mp hi
      obtain ⟨v, hv⟩ := hcover i hi2
      refine ⟨v, (List.mem_cons.mp hv).resolve_left fun heq => hi1 ?_⟩
      rw [← heq]
    have hvalue' : ∀ e' ∈ items, (m.erase e.1).lookup e'.1 = some e'.2 := by
      intro e' he'
      rw [Finmap.lookup_erase_ne (hne e' he')]
      exact hvalue e' (List.mem_cons_of_mem _ he')
    obtain ⟨root', hrun, hdone⟩ := ih hdel ((pending_erase hindex hnext).trans hp') hcover' hvalue' hnodup.2
      (Nat.lt_of_succ_lt_succ hn)
    refine ⟨root', ?_, hdone⟩
    rw [releaseLoop, radixTreeIterNext, hstep]
    dsimp only
    rw [hindex, if_pos hout, hrun]
    rfl

end Release

/-! ## Runs -/

/-- The answer of a gang lookup over ascending lists of items: the first ones from `start`; the
others are those from the returned index on, or there are none when that is 0. -/
structure GangExact (items : BitVec 64 → List (BitVec 64 × V)) (start : BitVec 64) (maxItems : ℕ)
    (r : List V × BitVec 64) : Prop where
  found : r.1 = ((items start).take maxItems).map Prod.snd
  resume : (if r.2 = 0 then [] else items r.2) = (items start).drop maxItems
  above : r.2 ≠ 0 → ∀ e ∈ (items start).take maxItems, e.1 < r.2

theorem GangOk.exact {m : RadixMap V} {p : BitVec 64 → Bool} {start : BitVec 64} {maxItems : ℕ}
    {r : List V × BitVec 64}
    (h : GangOk (fun n => (entryAt m p n).map Prod.snd) maxItems start.toNat r) :
    GangExact (itemsFrom m p) start maxItems r := by
  obtain ⟨hfound, hrest, hupto, -⟩ := h
  rw [← map_between] at hfound
  by_cases h0 : r.2 = 0
  · rw [if_pos h0, ← map_between, ← List.map_drop] at hrest
    refine ⟨by rw [hfound, ← List.map_take]; rfl, ?_, fun hne => absurd h0 hne⟩
    rw [if_pos h0]
    exact (List.map_eq_nil_iff.mp hrest.symm).symm
  · obtain ⟨hle, heq⟩ := hupto h0
    rw [← map_between] at heq
    have hsplit : itemsFrom m p start = between (entryAt m p) start.toNat r.2.toNat ++ itemsFrom m p r.2 :=
      (between_append hle r.2.isLt.le).symm
    have hlen : (between (entryAt m p) start.toNat r.2.toNat).length =
        min maxItems (itemsFrom m p start).length := by
      have hlist := congrArg List.length (heq.symm.trans hfound)
      rw [List.length_map, List.length_take, List.length_map] at hlist
      exact hlist
    rw [hsplit, List.length_append] at hlen
    have hfull : (between (entryAt m p) start.toNat r.2.toNat).length = maxItems ∨
        itemsFrom m p r.2 = [] := by
      by_cases hmax : (between (entryAt m p) start.toNat r.2.toNat).length = maxItems
      · exact Or.inl hmax
      · exact Or.inr (List.eq_nil_of_length_eq_zero (by omega))
    obtain ⟨htake, hdrop⟩ := take_drop_of_prefix (by omega) hfull
    rw [← hsplit] at htake hdrop
    refine ⟨by rw [htake, heq], by rw [if_neg h0, hdrop], fun _ e he => ?_⟩
    rw [htake] at he
    obtain ⟨n, -, hn, hne⟩ := mem_between.mp he
    rw [BitVec.lt_def, entryAt_indexed n (hn.trans r.2.isLt) e hne]
    exact hn

/-- All range operations of a tree that holds `a`: the gang lookups return, with the first items
from the start and the index to go on from; one of no items makes no round; the loops visit every
item once with its index; a release hands every item to `free_fn` once and leaves the empty tree. -/
structure ScansExactly [DecidableEq V] (rounds : ℕ) (root : RadixRoot V) (a : TaggedMap V) : Prop where
  gang : ∀ start maxItems, 0 < maxItems → ∃ r, radixTreeGangLookup root rounds start maxItems = .ok r ∧
    GangExact (itemsFrom a.map allIndices) start maxItems r
  gangTag : ∀ tag start maxItems, 0 < maxItems →
    ∃ r, radixTreeGangLookupTag root tag rounds start maxItems = .ok r ∧
    GangExact (itemsFrom a.map (taggedIndices a tag)) start maxItems r
  gangNone : ∀ start, radixTreeGangLookup root rounds start 0 = .ok ([], 0) ∧
    ∀ tag, radixTreeGangLookupTag root tag rounds start 0 = .ok ([], 0)
  forEach : ∀ start, radixTreeForEach root rounds start = .ok (itemsFrom a.map allIndices start)
  forEachTagged : ∀ tag start,
    radixTreeForEachTagged root tag rounds start = .ok (itemsFrom a.map (taggedIndices a tag) start)
  release : radixTreeRelease root rounds = .ok (radixInit, itemsFrom a.map allIndices 0)

theorem RadixTagRefines.scans [DecidableEq V] {root : RadixRoot V} {a : TaggedMap V} {rounds : ℕ}
    (h : RadixTagRefines root a) (hrounds : 2 ^ 64 < rounds) : ScansExactly rounds root a := by
  obtain ⟨n, rfl⟩ : ∃ n, rounds = n + 1 := ⟨rounds - 1, by omega⟩
  have hstart : ∀ (p : BitVec 64 → Bool) (start : BitVec 64),
      pending (entryAt a.map p) (radixTreeIterInit start) = itemsFrom a.map p start := fun p start =>
    if_neg fun hend => hend.2 rfl
  have hlen : ∀ (p : BitVec 64 → Bool) (start : BitVec 64), (itemsFrom a.map p start).length < n +
      1 := fun p start => by
    rw [← hstart]
    exact (length_pending _).trans_lt hrounds
  refine ⟨fun start maxItems hmax => ?_, fun tag start maxItems hmax => ?_,
    fun start => ⟨gangLookup_zero h.base.height_le start, fun tag => gangLookup_zero h.base.height_le start⟩,
    fun start => ?_, fun tag start => ?_, ?_⟩
  · obtain ⟨r, hr, hok⟩ := gang_ok h.base hrounds hmax start
    exact ⟨r, hr, hok.exact⟩
  · obtain ⟨r, hr, hok⟩ := gangTag_ok h tag hrounds hmax start
    exact ⟨r, hr, hok.exact⟩
  · exact forEachLoop_ok entryAt_indexed (gang_ok h.base hrounds Nat.one_pos) _ (hstart _ start)
      (hlen _ start)
  · exact forEachLoop_ok entryAt_indexed (gangTag_ok h tag hrounds Nat.one_pos) _ (hstart _ start)
      (hlen _ start)
  · have hnodup : ((itemsFrom a.map allIndices 0).map Prod.fst).Nodup := by
      rw [List.nodup_iff_pairwise_ne, List.pairwise_map]
      exact (itemsFrom_ascending 0).imp fun hlt => BitVec.ne_of_lt hlt
    obtain ⟨root', hrun, hempty⟩ := releaseLoop_ok hrounds _ h.base (hstart allIndices 0)
      (fun i hi => by
        obtain ⟨v, hv⟩ := Finmap.mem_iff.mp hi
        exact ⟨v, mem_itemsFrom.mpr ⟨BitVec.le_def.mpr (Nat.zero_le _), rfl, hv⟩⟩)
      (fun e he => (mem_itemsFrom.mp he).2.2) hnodup (hlen allIndices 0)
    have hroot : root' = radixInit := by
      have hnull := hempty.isNull_of_empty
      obtain ⟨height, nrNodes, rnode⟩ := root'
      obtain rfl : rnode = .null := eq_null_of_isNull hnull
      obtain rfl : height = 0 := hempty.empty.mp hnull
      obtain rfl : nrNodes = 0 := hempty.nrNodes
      rfl
    rw [← hroot]
    exact hrun

/-- The tree after any run in which node allocation succeeds is scanned exactly. -/
theorem radix_scan_exact [DecidableEq V] (cs : List (RadixTagCmd V))
    (hcs : radixTagSpec.LegalRun taggedEmpty cs)
    {rounds : ℕ} (hrounds : 2 ^ 64 < rounds) :
    ScansExactly rounds (runCmds radixTagExec radixInit cs).1 (radixTagSpec.after taggedEmpty cs) := by
  obtain ⟨-, hR⟩ := Spec.conforms radixTagExec_refines cs radixInit taggedEmpty radixInit_tagRefines hcs
  exact hR.scans hrounds

/-- Two items, of which the second is tagged. -/
def threeAndSeven : List (RadixTagCmd ℕ) :=
  [.base (.insert 3 (some 30) fun _ => true), .base (.insert 7 (some 70) fun _ => true),
    .tagSet 7 (Fin.last 2)]

theorem threeAndSeven_legal : radixTagSpec.LegalRun taggedEmpty threeAndSeven := by
  refine ⟨fun _ => rfl, fun _ => rfl, ?_, trivial⟩
  change 7 ∈ radixSpec.after ∅ [.insert 3 (some 30) fun _ => true, .insert 7 (some 70) fun _ => true]
  decide

theorem radix_scan_exact_threeAndSeven :
    radixTagSpec.LegalRun taggedEmpty threeAndSeven ∧
    radixTreeRelease (runCmds radixTagExec radixInit threeAndSeven).1 (2 ^ 64 + 1) =
      .ok (radixInit, itemsFrom (radixTagSpec.after taggedEmpty threeAndSeven).map allIndices 0) :=
  ⟨threeAndSeven_legal, (radix_scan_exact threeAndSeven threeAndSeven_legal (Nat.lt_succ_self _)).release⟩

/-- A gang lookup of no items from 5 returns the index 0, although the item at 7 remains. -/
theorem gang_lookup_of_none : ∃ r,
    radixTreeGangLookup (runCmds radixTagExec radixInit threeAndSeven).1 (2 ^ 64 + 1) 5 0 = .ok r ∧
    ¬ GangExact (itemsFrom (radixTagSpec.after taggedEmpty threeAndSeven).map allIndices) 5 0 r := by
  refine ⟨([], 0), gangLookup_zero (by decide) 5, fun hexact => ?_⟩
  have hnil := hexact.resume
  rw [if_pos rfl, List.drop_zero] at hnil
  have hmem : ((7 : BitVec 64), 70) ∈ itemsFrom (radixTagSpec.after taggedEmpty threeAndSeven).map
      allIndices 5 :=
    mem_itemsFrom.mpr ⟨by decide, rfl, by decide⟩
  rw [← hnil] at hmem
  cases hmem

end Skp.Adt
