import Skp.Adt.DictModel
import Skp.Foundations.Chains

/-! # One table of the dict

What a table of `dict.c` keeps between calls, and the two ways a chain changes: an element leaves it
or an element enters it. Removal by key, direct removal and the bucket move all leave through
`TableWf.erase`; insertion and the bucket move all enter through `TableWf.insert`. -/
namespace Skp.Adt
set_option autoImplicit false
open Skp.Foundations

variable {K N : Type}

/-- The fields a linked node carries in bucket `i` of a table of `size` buckets. -/
structure NodeAt (ops : DictOps K) (v : DictNode K) (w : Bool) (i size : ℕ) : Prop where
  linked : v.linked = true
  whichb : v.whichb = w
  bindex : v.bindex = i
  hvalue : v.hvalue = ops.calcHash v.key
  home : i = v.hvalue.toNat &&& (size - 1)

/-- The table holds the node in some chain. -/
def DictTable.Holds (t : DictTable N) (n : N) : Prop := ∃ i, n ∈ t.bucket i

structure TableWf (ops : DictOps K) (node : N → DictNode K) (w : Bool) (t : DictTable N) : Prop where
  inside : ∀ i, t.bucket i ≠ [] → i < t.size
  mapping : ∀ i, t.mapping i = true ↔ t.bucket i ≠ []
  place : ∀ i n, n ∈ t.bucket i → NodeAt ops (node n) w i t.size
  nodup : ∀ i, (t.bucket i).Nodup
  count : t.nrNodes = chainLoad t.bucket t.size

/-- A table without nodes, of any size: just allocated, or released. -/
def DictTable.fresh (size : ℕ) : DictTable N :=
  { nrNodes := 0, size := size, bucket := fun _ => [], mapping := fun _ => false }

theorem tableWf_fresh (ops : DictOps K) (node : N → DictNode K) (w : Bool) (size : ℕ) :
    TableWf ops node w (DictTable.fresh size) where
  inside := fun i h => absurd rfl h
  mapping := fun i => by simp [DictTable.fresh]
  place := fun i n h => absurd h List.not_mem_nil
  nodup := fun i => List.nodup_nil
  count := (chainLoad_nil size).symm

section Table
variable {ops : DictOps K} {node : N → DictNode K} {w : Bool} {t : DictTable N}

theorem TableWf.not_holds_of_empty (h : TableWf ops node w t) (hz : t.nrNodes = 0) (n : N) :
    ¬ t.Holds n := by
  rintro ⟨i, hi⟩
  have hne : t.bucket i ≠ [] := List.ne_nil_of_mem hi
  have hnil := eq_nil_of_chainLoad_eq_zero (h.count.symm.trans hz) (h.inside i hne)
  exact hne hnil

theorem TableWf.index_unique (h : TableWf ops node w t) {n : N} {i j : ℕ} (hi : n ∈ t.bucket i)
    (hj : n ∈ t.bucket j) : i = j := by
  rw [← (h.place i n hi).bindex, (h.place j n hj).bindex]

theorem TableWf.setNode [DecidableEq N] (h : TableWf ops node w t) {n : N} (hn : ¬ t.Holds n)
    (v : DictNode K) : TableWf ops (Function.update node n v) w t where
  inside := h.inside
  mapping := h.mapping
  place := fun i m hm => by
    have hne : m ≠ n := fun he => hn ⟨i, he ▸ hm⟩
    rw [Function.update_of_ne hne]
    exact h.place i m hm
  nodup := h.nodup
  count := h.count

/-- One chain is replaced: what the new chain, the bitmap and the counter have to satisfy. -/
theorem TableWf.replaceChain (h : TableWf ops node w t) {t' : DictTable N} {idx : ℕ} {c : List N}
    (hb : t'.bucket = Function.update t.bucket idx c) (hs : t'.size = t.size) (hidx : idx < t.size)
    (hmap : ∀ i, t'.mapping i = if i = idx then !c.isEmpty else t.mapping i)
    (hplace : ∀ m ∈ c, NodeAt ops (node m) w idx t.size) (hnd : c.Nodup)
    (hcount : t'.nrNodes + (t.bucket idx).length = t.nrNodes + c.length) :
    TableWf ops node w t' := by
  have hload := chainLoad_update t.bucket hidx c
  refine ⟨?_, ?_, ?_, ?_, ?_⟩
  · intro i hi
    rw [hs]
    by_cases he : i = idx
    · exact he ▸ hidx
    · rw [hb, Function.update_of_ne he] at hi
      exact h.inside i hi
  · intro i
    rw [hmap, hb]
    by_cases he : i = idx
    · subst he
      simp
    · simpa [he] using h.mapping i
  · intro i m hm
    rw [hs]
    rw [hb] at hm
    by_cases he : i = idx
    · subst he
      rw [Function.update_self] at hm
      exact hplace m hm
    · rw [Function.update_of_ne he] at hm
      exact h.place i m hm
  · intro i
    rw [hb]
    by_cases he : i = idx
    · subst he
      rwa [Function.update_self]
    · rw [Function.update_of_ne he]
      exact h.nodup i
  · have := h.count
    rw [hs, hb]
    omega

theorem holds_replaceChain {t' : DictTable N} {idx : ℕ} {c : List N}
    (hb : t'.bucket = Function.update t.bucket idx c) (m : N) :
    t'.Holds m ↔ m ∈ c ∨ ∃ i, i ≠ idx ∧ m ∈ t.bucket i := by
  constructor
  · rintro ⟨i, hi⟩
    rw [hb] at hi
    by_cases he : i = idx
    · subst he
      exact Or.inl (by rwa [Function.update_self] at hi)
    · exact Or.inr ⟨i, he, by rwa [Function.update_of_ne he] at hi⟩
  · rintro (hc | ⟨i, he, hi⟩)
    · exact ⟨idx, by rwa [hb, Function.update_self]⟩
    · exact ⟨i, by rwa [hb, Function.update_of_ne he]⟩

theorem dec32_add_one {n : ℕ} (hpos : 0 < n) (hlt : n < 2 ^ 32) : dec32 n + 1 = n := by
  unfold dec32
  split <;> omega

theorem inc32_of_lt {n : ℕ} (hlt : n + 1 < 2 ^ 32) : inc32 n = n + 1 := if_neg (Nat.ne_of_lt hlt)

/-- An element leaves the chain of bucket `idx`. -/
theorem TableWf.erase (h : TableWf ops node w t) {n : N} {c : List N} {idx : ℕ}
    (hp : (n :: c).Perm (t.bucket idx)) (hroom : t.nrNodes < 2 ^ 32) :
    TableWf ops node w ((t.setBucket idx c).eraseNodeAfter idx) ∧
      ((t.setBucket idx c).eraseNodeAfter idx).nrNodes + 1 = t.nrNodes ∧
      ∀ m, ((t.setBucket idx c).eraseNodeAfter idx).Holds m ↔ t.Holds m ∧ m ≠ n := by
  have hmem : n ∈ t.bucket idx := hp.mem_iff.mp List.mem_cons_self
  have hidx : idx < t.size := h.inside idx (List.ne_nil_of_mem hmem)
  have hnd : (n :: c).Nodup := hp.nodup_iff.mpr (h.nodup idx)
  have hlen : (t.bucket idx).length = c.length + 1 := by rw [← hp.length_eq, List.length_cons]
  have hload := chainLoad_update t.bucket hidx c
  have hdec : ((t.setBucket idx c).eraseNodeAfter idx).nrNodes + 1 = t.nrNodes := by
    have hcount := h.count
    have hpos : 0 < t.nrNodes := by omega
    exact dec32_add_one hpos hroom
  refine ⟨h.replaceChain rfl rfl hidx ?_ ?_ (List.nodup_cons.mp hnd).2 ?_, hdec, ?_⟩
  · intro i
    have hold : t.mapping idx = true := (h.mapping idx).mpr (List.ne_nil_of_mem hmem)
    by_cases he : i = idx <;> by_cases hc : c = [] <;>
      simp [DictTable.eraseNodeAfter, DictTable.setBucket, he, hc, hold]
  · intro m hm
    exact h.place idx m (hp.mem_iff.mp (List.mem_cons_of_mem n hm))
  · rw [hlen, ← hdec]
    exact (Nat.add_right_comm _ 1 _).symm
  · intro m
    rw [holds_replaceChain rfl]
    constructor
    · rintro (hc | ⟨i, he, hi⟩)
      · exact ⟨⟨idx, hp.mem_iff.mp (List.mem_cons_of_mem n hc)⟩, fun hmn =>
          (List.nodup_cons.mp hnd).1 (hmn ▸ hc)⟩
      · exact ⟨⟨i, hi⟩, fun hmn => he (h.index_unique (hmn ▸ hi) hmem)⟩
    · rintro ⟨⟨i, hi⟩, hne⟩
      by_cases he : i = idx
      · subst he
        exact Or.inl ((List.mem_cons.mp (hp.mem_iff.mpr hi)).resolve_left hne)
      · exact Or.inr ⟨i, he, hi⟩

/-- An element that the table does not hold enters the chain of bucket `idx`. -/
theorem TableWf.insert (h : TableWf ops node w t) {n : N} {c : List N} {idx : ℕ}
    (hp : c.Perm (n :: t.bucket idx)) (hidx : idx < t.size) (hn : NodeAt ops (node n) w idx t.size)
    (hout : ¬ t.Holds n) (hroom : t.nrNodes + 1 < 2 ^ 32) :
    TableWf ops node w ((t.insertNodeBefore idx).setBucket idx c) ∧
      ((t.insertNodeBefore idx).setBucket idx c).nrNodes = t.nrNodes + 1 ∧
      ∀ m, ((t.insertNodeBefore idx).setBucket idx c).Holds m ↔ t.Holds m ∨ m = n := by
  have hmem : n ∈ c := hp.mem_iff.mpr List.mem_cons_self
  have hlen : c.length = (t.bucket idx).length + 1 := by rw [hp.length_eq, List.length_cons]
  have hnd : c.Nodup :=
    hp.nodup_iff.mpr (List.nodup_cons.mpr ⟨fun hb => hout ⟨idx, hb⟩, h.nodup idx⟩)
  have hinc : ((t.insertNodeBefore idx).setBucket idx c).nrNodes = t.nrNodes + 1 := inc32_of_lt hroom
  refine ⟨h.replaceChain rfl rfl hidx ?_ ?_ hnd ?_, hinc, ?_⟩
  · intro i
    have hc : c ≠ [] := List.ne_nil_of_mem hmem
    by_cases he : i = idx
    · subst he
      by_cases hb : t.bucket i = []
      · simp [DictTable.insertNodeBefore, DictTable.setBucket, hb, hc]
      · simp [DictTable.insertNodeBefore, DictTable.setBucket, hb, hc, (h.mapping i).mpr hb]
    · by_cases hb : t.bucket idx = [] <;>
        simp [DictTable.insertNodeBefore, DictTable.setBucket, hb, he]
  · intro m hm
    rcases List.mem_cons.mp (hp.mem_iff.mp hm) with hmn | hmt
    · exact hmn ▸ hn
    · exact h.place idx m hmt
  · rw [hlen, hinc]
    exact Nat.add_right_comm _ 1 _
  · intro m
    rw [holds_replaceChain rfl, hp.mem_iff, List.mem_cons]
    constructor
    · rintro ((hmn | hmt) | ⟨i, -, hi⟩)
      · exact Or.inr hmn
      · exact Or.inl ⟨idx, hmt⟩
      · exact Or.inl ⟨i, hi⟩
    · rintro (⟨i, hi⟩ | hmn)
      · by_cases he : i = idx
        · exact Or.inl (Or.inr (he ▸ hi))
        · exact Or.inr ⟨i, he, hi⟩
      · exact Or.inl (Or.inl hmn)

end Table

end Skp.Adt
