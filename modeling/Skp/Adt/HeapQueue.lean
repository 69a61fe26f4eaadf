import Skp.Adt.HeapModel
import Skp.Adt.RbtreeRuns

/-! # The heap is a stable priority queue

The callback of a heap is a three-way comparison in disguise, under which `heap_insert` is an
insertion that allows equal nodes. What the tree holds depends on the contents of the linked nodes
only, so the others may change. -/
namespace Skp.Adt
set_option autoImplicit false
open Skp.Foundations Skp.Foundations.RbTree

variable {N V : Type*}

/-! ## The callback -/

/-- Positive where the new node goes to the left. -/
def heapOps (compareNode : V → V → Bool) (value : N → V) : RbtreeOps N N where
  compareKey a b := if compareNode (value a) (value b) then 1
    else if compareNode (value b) (value a) then -1 else 0
  compareNode a b := if compareNode (value a) (value b) then 1
    else if compareNode (value b) (value a) then -1 else 0

section Callback
variable {compareNode : V → V → Bool} {value : N → V} {a b c : N}

theorem heapOps_pos :
    0 < (heapOps compareNode value).compareNode a b ↔ compareNode (value a) (value b) = true := by
  simp only [heapOps]
  split
  · simp [*]
  · split <;> simp [*]

theorem heapOps_le : (heapOps compareNode value).compareNode a b ≤ 0 ↔
      compareNode (value a) (value b) = false := by
  rw [← not_lt, heapOps_pos, Bool.not_eq_true]

variable (hweak : IsStrictWeakOrder V fun u v => compareNode u v = true)
include hweak

theorem heapOps_neg :
    (heapOps compareNode value).compareNode a b < 0 ↔ compareNode (value b) (value a) = true := by
  simp only [heapOps]
  split
  · rename_i hab
    have hba : ¬ compareNode (value b) (value a) = true :=
      fun hba => hweak.irrefl _ (hweak.trans _ _ _ hab hba)
    simp [hba]
  · split <;> simp [*]

theorem heapOps_zero : (heapOps compareNode value).compareNode a b = 0 ↔
    compareNode (value a) (value b) = false ∧ compareNode (value b) (value a) = false := by
  rw [← heapOps_le, ← Bool.not_eq_true, ← heapOps_neg hweak]
  omega

/-- What is not before is transitive, as in every strict weak order. -/
theorem weak_trans {u v w : V} (huv : compareNode u v = false) (hvw : compareNode v w = false) :
    compareNode u w = false := by
  rw [← Bool.not_eq_true] at huv hvw ⊢
  intro huw
  have hvu : ¬ compareNode v u = true := fun hvu => hvw (hweak.trans _ _ _ hvu huw)
  have hwv : ¬ compareNode w v = true := fun hwv => huv (hweak.trans _ _ _ huw hwv)
  exact (hweak.incomp_trans u v w ⟨huv, hvu⟩ ⟨hvw, hwv⟩).1 huw

theorem heapOps_ok (value : N → V) : CompareOk (heapOps compareNode value) where
  node_swap a b := heapOps_pos.trans (heapOps_neg hweak).symm
  node_trans a b c hab hbc := heapOps_le.mpr (weak_trans hweak (heapOps_le.mp hab) (heapOps_le.mp hbc))
  key_le a b k hab hbk := heapOps_le.mpr (weak_trans hweak (heapOps_le.mp hab) (heapOps_le.mp hbk))
  key_ge a b k hab hak := by
    have hka : compareNode (value k) (value a) = false := by
      rw [← Bool.not_eq_true, ← heapOps_neg (a := a) (b := k) hweak, not_lt]
      exact hak
    have hkb := weak_trans hweak hka (heapOps_le.mp hab)
    rw [← Bool.not_eq_true, ← heapOps_neg (a := b) (b := k) hweak, not_lt] at hkb
    exact hkb
  key_eq a b k hak := by
    obtain ⟨hle, hge⟩ := (heapOps_zero hweak).mp hak
    constructor
    · intro hbk
      obtain ⟨hbk, hkb⟩ := (heapOps_zero hweak).mp hbk
      exact (heapOps_zero hweak).mpr ⟨weak_trans hweak hbk hge, weak_trans hweak hle hkb⟩
    · intro hba
      obtain ⟨hba, hab⟩ := (heapOps_zero hweak).mp hba
      exact (heapOps_zero hweak).mpr ⟨weak_trans hweak hba hle, weak_trans hweak hge hab⟩

end Callback

theorem iheapLess_weak : IsStrictWeakOrder ℤ fun u v => iheapLess u v = true where
  irrefl u := by simp [iheapLess]
  trans u v w := by
    simp only [iheapLess, decide_eq_true_eq]
    omega
  incomp_trans u v w := by
    simp only [iheapLess, decide_eq_true_eq]
    omega

/-! ## Nodes that are not linked -/

variable {K : Type*} {ops ops' : RbtreeOps N K} {s : RbRoot N} {xs ins : List N} {t : RbTree N}
    {x : N} {fuel : ℕ}

theorem Holding.congr (hops' : CompareOk ops') (h : Holding ops xs ins)
    (heq : ∀ x y, x ∈ ins → y ∈ ins → ops'.compareNode x y = ops.compareNode x y) : Holding ops' xs ins where
  sorted := by
    have hmem : ∀ x, x ∈ xs → x ∈ ins := fun x hx => h.perm.mem_iff.mp hx
    have hsorted : xs.Pairwise fun a b => ops.compareNode a b ≤ 0 := h.sorted
    refine hsorted.imp_of_mem fun {a b} ha hb hab => ?_
    rw [heq a b (hmem a ha) (hmem b hb)]
    exact hab
  perm := h.perm
  stable a := by
    by_cases hex : ∃ b ∈ ins, ops'.compareNode b a = 0
    · -- the class of `a` is that of a linked node
      obtain ⟨b, hb, hba⟩ := hex
      have hclass : ∀ zs : List N, (∀ x, x ∈ zs → x ∈ ins) →
          zs.filter (fun x => decide (ops'.compareNode x a = 0)) =
          zs.filter fun x => decide (ops.compareNode x b = 0) := by
        intro zs hzs
        apply List.filter_congr
        intro x hx
        rw [← heq x b (hzs x hx) hb, decide_eq_decide]
        exact hops'.same_class hba
      rw [hclass xs fun x hx => h.perm.mem_iff.mp hx, hclass ins fun x hx => hx]
      exact h.stable b
    · have hnil : ∀ zs : List N, (∀ x, x ∈ zs → x ∈ ins) →
        zs.filter (fun x => decide (ops'.compareNode x a = 0)) = [] := by
        intro zs hzs
        rw [List.filter_eq_nil_iff]
        intro x hx hxa
        exact hex ⟨x, hzs x hx, by simpa using hxa⟩
      rw [hnil xs fun x hx => h.perm.mem_iff.mp hx, hnil ins fun x hx => hx]

theorem RbInv.congr (hops' : CompareOk ops') (h : RbInv ops s ins t)
    (heq : ∀ x y, x ∈ ins → y ∈ ins → ops'.compareNode x y = ops.compareNode x y) : RbInv ops' s ins t :=
  ⟨h.focus, h.balanced, h.holding.congr hops' heq, h.leftmost⟩

theorem RbInv.nodup (h : RbInv ops s ins t) : ins.Nodup := h.holding.perm.nodup_iff.mp h.focus.toList_nodup

variable [DecidableEq N]

theorem RbInv.clear (h : RbInv ops s ins t) (hx : x ∉ ins) : RbInv ops (rbtClearNode s x) ins t where
  focus := h.focus.congr rfl fun _ hy => put_heap_ne s _ fun heq => hx (heq ▸ h.holding.perm.mem_iff.mp hy)
  balanced := h.balanced
  holding := h.holding
  leftmost := h.leftmost

theorem RbInv.notEmpty (h : RbInv ops s ins t) (hx : x ∈ ins) : s.node ≠ none ∧ rbtEmptyNode s x = false := by
  obtain ⟨us, vs, hlist⟩ := List.append_of_mem (h.holding.perm.mem_iff.mpr hx)
  obtain ⟨fs, c, l, r, -, hfocus, -, -, -⟩ := h.focus.zoom hlist
  refine ⟨?_, hfocus.notEmpty⟩
  have hnode : s.node = t.root := h.focus.hole
  rw [hnode]
  cases t with
  | nil => exact absurd hlist (by simp [toList])
  | node c l y r => simp [root]

/-! ## The descent -/

omit [DecidableEq N] in
theorem insertPoint_eq_heapDescend (heap : Heap N V) (node : N) (fuel : ℕ) :
    ∀ (link : Option (N × Side)) (leftmost : Bool) (cur : Option N),
    insertPoint (heapOps heap.compareNode heap.value) fuel heap.root node true link leftmost cur =
      (heapDescend fuel heap node link leftmost cur).map fun p => .link p.1 p.2 := by
  induction fuel with
  | zero => exact fun _ _ _ => rfl
  | succ fuel ih =>
    intro link leftmost cur
    cases cur with
    | none => rfl
    | some existed =>
      rw [insertPoint, heapDescend,
        if_neg (by simp : ¬ ((heapOps heap.compareNode heap.value).compareNode existed node = 0 ∧
        true = false))]
      by_cases hleft : heap.compareNode (heap.value existed) (heap.value node) = true
      · rw [if_pos (heapOps_pos.mpr hleft), if_pos hleft]
        exact ih _ _ _
      · rw [if_neg (fun hpos => hleft (heapOps_pos.mp hpos)), if_neg hleft]
        exact ih _ _ _

/-! ## One call -/

section OneCall
variable {compareNode : V → V → Bool} {heap : Heap N V} {q : StableQueue N V} {n : N} {v : V}

/-- The heap has the entries of the queue, in a tree that is right for their contents. -/
structure HeapInv (compareNode : V → V → Bool) (heap : Heap N V) (q : StableQueue N V)
    (t : RbTree N) : Prop where
  compare : heap.compareNode = compareNode
  value : heap.value = q.value
  rb : RbInv (heapOps compareNode q.value) heap.root q.entries t

variable (hweak : IsStrictWeakOrder V fun u v => compareNode u v = true)
include hweak

omit [DecidableEq N] in
theorem HeapInv.leftmost (h : HeapInv compareNode heap q t) : heap.root.leftmost = q.next compareNode := by
  have hops := heapOps_ok hweak q.value
  rw [h.rb.leftmost]
  have hold := h.rb.holding
  cases hlist : t.toList with
  | nil =>
    rw [hlist] at hold
    have hnil : q.entries = [] := List.nil_perm.mp hold.perm
    simp [StableQueue.next, hnil]
  | cons x xs =>
    rw [hlist] at hold
    have hsorted := List.pairwise_cons.mp hold.sorted
    have hx : x ∈ q.entries := hold.perm.mem_iff.mp List.mem_cons_self
    have hleast : ∀ m, m ∈ q.entries → (heapOps compareNode q.value).compareNode x m ≤ 0 := by
      intro m hm
      cases List.mem_cons.mp (hold.perm.mem_iff.mpr hm) with
      | inl heq => rw [heq, hops.node_refl]
      | inr hm => exact hsorted.1 m hm
    -- the entries with nothing before them are those equal to the first of the tree
    have hnext : q.next compareNode =
        q.entries.find? fun n => decide ((heapOps compareNode q.value).compareNode n x = 0) := by
      apply List.find?_congr
      intro n hn
      rw [Bool.eq_iff_iff, List.all_eq_true, decide_eq_true_eq]
      constructor
      · intro hall
        have hxn := hall x hx
        rw [Bool.not_eq_true', StableQueue.before, ← heapOps_le] at hxn
        exact le_antisymm hxn (by
          have hswap := hops.node_swap x n
          have hle := hleast n hn
          omega)
      · intro hnx m hm
        rw [Bool.not_eq_true', StableQueue.before, ← heapOps_le]
        exact hops.node_trans n x m hnx.le (hleast m hm)
    rw [hnext, ← List.head?_filter, ← hold.stable x, List.filter_cons_of_pos (by simp [hops.node_refl])]
    rfl

omit hweak [DecidableEq N] in
theorem HeapInv.root (h : HeapInv compareNode heap q t) : heap.root.node = none ↔ q.entries = [] := by
  have hnode : heap.root.node = t.root := h.rb.focus.hole
  have hlen := h.rb.length
  rw [hnode, ← List.length_eq_zero_iff, ← hlen]
  cases t <;> simp [root, toList]

omit [DecidableEq N] in
theorem heapPeek_ok (h : HeapInv compareNode heap q t) : heapPeek heap = q.next compareNode := by
  rw [heapPeek, h.leftmost hweak]
  split
  · rename_i hnone
    rw [StableQueue.next, h.root.mp hnone]
    rfl
  · rfl

theorem heapInsert_ok (h : HeapInv compareNode heap q t) (hn : n ∉ q.entries)
    (hfuel : q.entries.length < fuel) :
    ∃ heap' t', heapInsert fuel heap n = some (heap', decide ((q.insert n).next compareNode = some n)) ∧
      HeapInv compareNode heap' (q.insert n) t' := by
  have hops := heapOps_ok hweak q.value
  have hnode : heap.root.node = t.root := h.rb.focus.hole
  have hlen : t.toList.length < fuel := h.rb.length ▸ hfuel
  rcases insertPoint_ok hops t fuel [] true h.rb.focus h.rb.holding.sorted hlen
    (between_root _ n true) (by simp [before]) with
    ⟨y, -, hm, -⟩ | ⟨gs, first, hpoint, hfocus, hplug, hbetween, hfirst⟩
  · cases hm
  · obtain ⟨root', t', hinsert, hinv, hflag⟩ := rbInsert_ok hops h.rb hn hfocus hplug hbetween hfirst hfuel
    have hdescend : heapDescend fuel heap n none true heap.root.node = some (linkOf gs, first) := by
      have heq := insertPoint_eq_heapDescend heap n fuel none true heap.root.node
      rw [h.compare, h.value, hnode] at heq
      have hsome := heq.symm.trans hpoint
      rw [hnode]
      obtain ⟨p, hp, hlink⟩ := Option.map_eq_some_iff.mp hsome
      rw [hp, ← (InsertPoint.link.inj hlink).1, ← (InsertPoint.link.inj hlink).2]
    have hinv' : HeapInv compareNode { heap with root := root' } (q.insert n) t' := ⟨h.compare, h.value, hinv⟩
    refine ⟨_, t', ?_, hinv'⟩
    have hb : first = decide ((q.insert n).next compareNode = some n) := by
      rw [Bool.eq_iff_iff, hflag, decide_eq_true_eq, ← hinv'.leftmost hweak]
    rw [heapInsert, hdescend, Option.bind_some, hinsert, hb]
    rfl

omit hweak in
theorem heapRemove_ok (h : HeapInv compareNode heap q t) (hn : n ∈ q.entries)
    (hfuel : q.entries.length < fuel) :
    ∃ heap' t', heapRemove fuel heap n = some heap' ∧ HeapInv compareNode heap' (q.remove n) t' := by
  obtain ⟨root', t', herase, hinv⟩ := rbtreeErase_ok h.rb hn hfuel
  obtain ⟨hnode, hempty⟩ := h.rb.notEmpty hn
  refine ⟨{ heap with root := rbtClearNode root' n }, t', ?_, h.compare, h.value, hinv⟩
  rw [heapRemove, if_neg (by simp [hnode, hempty]), herase]
  rfl

/-- The contents of a node that is not in the heap change. -/
theorem HeapInv.assign (h : HeapInv compareNode heap q t) (hn : n ∉ q.entries) :
    HeapInv compareNode { heap with value := Function.update heap.value n v } (q.assign n v) t where
  compare := h.compare
  value := by rw [h.value]; rfl
  rb := by
    refine h.rb.congr (heapOps_ok hweak _) fun x y hx hy => ?_
    have hkeep : ∀ z, z ∈ q.entries → Function.update q.value n v z = q.value z := fun z hz =>
      Function.update_of_ne (ne_of_mem_of_not_mem hz hn) v q.value
    simp only [heapOps, StableQueue.assign, hkeep x hx, hkeep y hy]

theorem iheapUpdate_ok (h : HeapInv compareNode heap q t) (hn : n ∈ q.entries)
    (hfuel : q.entries.length < fuel) :
    ∃ heap' t', iheapUpdate fuel heap n v =
        some (heap', decide ((((q.remove n).assign n v).insert n).next compareNode = some n)) ∧
      HeapInv compareNode heap' (((q.remove n).assign n v).insert n) t' := by
  obtain ⟨heap₁, t₁, hremove, hinv₁⟩ := heapRemove_ok h hn hfuel
  have hnot : n ∉ (q.remove n).entries := h.rb.nodup.not_mem_erase
  have hlen : (q.remove n).entries.length < fuel := lt_of_le_of_lt List.length_erase_le hfuel
  obtain ⟨heap', t', hinsert, hinv⟩ := heapInsert_ok hweak (hinv₁.assign (v := v) hweak hnot) hnot hlen
  refine ⟨heap', t', ?_, hinv⟩
  rw [iheapUpdate, hremove, Option.bind_some]
  exact hinsert

theorem heapExec_ok (cmd : HeapCmd N V) (h : HeapInv compareNode heap q t)
    (hlegal : (heapSpec compareNode).legal q cmd)
    (hfuel : q.entries.length < fuel) :
    ∃ heap' o, heapExec fuel heap cmd = some (heap', o) ∧ (heapSpec compareNode).out q cmd o ∧
      ∃ t', HeapInv compareNode heap' ((heapSpec compareNode).next q cmd) t' := by
  cases cmd with
  | init n v =>
    have hassign := h.assign (v := v) hweak hlegal
    exact ⟨_, _, rfl, rfl, t, hassign.compare, hassign.value, hassign.rb.clear hlegal⟩
  | insert n =>
    obtain ⟨heap', t', hinsert, hinv⟩ := heapInsert_ok hweak h hlegal hfuel
    exact ⟨heap', _, by rw [heapExec, hinsert]; rfl, rfl, t', hinv⟩
  | remove n =>
    obtain ⟨heap', t', hremove, hinv⟩ := heapRemove_ok h hlegal hfuel
    exact ⟨heap', _, by rw [heapExec, hremove]; rfl, rfl, t', hinv⟩
  | peek => exact ⟨heap, _, rfl, congrArg HeapOut.node (heapPeek_ok hweak h), t, h⟩
  | extract =>
    have hpeek := heapPeek_ok hweak h
    cases hnext : q.next compareNode with
    | none =>
      refine ⟨heap, .node none, ?_, congrArg HeapOut.node hnext.symm, t, ?_⟩
      · rw [heapExec, heapExtract, hpeek, hnext]
        rfl
      · simp only [heapSpec, hnext]
        exact h
    | some n =>
      have hn : n ∈ q.entries := List.mem_of_find?_eq_some hnext
      obtain ⟨heap', t', hremove, hinv⟩ := heapRemove_ok h hn hfuel
      refine ⟨heap', .node (some n), ?_, congrArg HeapOut.node hnext.symm, t', ?_⟩
      · rw [heapExec, heapExtract, hpeek, hnext]
        simp only [hremove]
        rfl
      · simp only [heapSpec, hnext]
        exact hinv
  | update n v =>
    obtain ⟨heap', t', hupdate, hinv⟩ := iheapUpdate_ok (v := v) hweak h hlegal hfuel
    exact ⟨heap', _, by rw [heapExec, hupdate]; rfl, rfl, t', hinv⟩

end OneCall

/-! ## All calls -/

theorem heapSpec_length (compareNode : V → V → Bool) (q : StableQueue N V) (cmd : HeapCmd N V) :
    ((heapSpec compareNode).next q cmd).entries.length ≤ q.entries.length + 1 := by
  have herase : ∀ n, (q.entries.erase n).length ≤ q.entries.length := fun n => List.length_erase_le
  cases cmd with
  | extract =>
    simp only [heapSpec]
    cases q.next compareNode with
    | none => exact Nat.le_succ _
    | some n => exact (herase n).trans (Nat.le_succ _)
  | remove n => exact (herase n).trans (Nat.le_succ _)
  | update n v => simpa [heapSpec, StableQueue.insert, StableQueue.assign, StableQueue.remove] using herase n
  | init n v => exact Nat.le_succ _
  | insert n => simp [heapSpec, StableQueue.insert]
  | peek => exact Nat.le_succ _

/-- Any legal calls on a new heap return, and with the answers of the stable priority queue, whose
entries are the nodes of the tree. -/
theorem heap_ok (compareNode : V → V → Bool) (hweak : IsStrictWeakOrder V fun u v => compareNode u v = true)
    (memory : N → RbtNode N) (value : N → V) (cmds : List (HeapCmd N V)) (fuel : ℕ)
    (hfuel : cmds.length < fuel)
    (hlegal : (heapSpec compareNode).LegalRun ⟨[], value⟩ cmds) :
    ∃ heap outs, runCalls (heapExec fuel) (heapInit compareNode memory value) cmds = some (heap, outs) ∧
      (heapSpec compareNode).Conforms ⟨[], value⟩ cmds outs ∧
        HeapHolds heap ((heapSpec compareNode).after ⟨[], value⟩ cmds) := by
  have hinit : HeapInv compareNode (heapInit compareNode memory value) ⟨[], value⟩ nil :=
    ⟨rfl, rfl, rbInv_init _ memory⟩
  obtain ⟨heap, outs, hrun, houts, ⟨t, hinv⟩, -⟩ := Spec.conforms_calls
    (fun n heap q => (∃ t, HeapInv compareNode heap q t) ∧ q.entries.length + n < fuel)
    (fun n heap q cmd hR hl => by
      obtain ⟨⟨t, hinv⟩, hlen⟩ := hR
      obtain ⟨heap', o, hexec, hout, hinv'⟩ :=
      heapExec_ok hweak cmd hinv hl (by omega : q.entries.length < fuel)
      have hgrow := heapSpec_length compareNode q cmd
      exact ⟨heap', o, hexec, hout, hinv', by omega⟩)
    cmds _ _ ⟨⟨nil, hinit⟩, by simpa using hfuel⟩ hlegal
  exact ⟨heap, outs, hrun, houts, hinv.value, t, hinv.rb.focus.hole, hinv.rb.focus.shape,
    hinv.rb.focus.toList_nodup,
    hinv.rb.holding.perm⟩

/-- Two nodes of one value, the older of which is updated to it and so becomes the later one. -/
def tiedCmds : List (HeapCmd ℕ ℤ) :=
  [.insert 1, .init 2 5, .insert 2, .update 1 5, .init 3 (-4), .insert 3, .extract, .peek,
    .remove 2, .extract, .extract]

theorem heap_ok_tiedCmds : ∃ heap outs,
    runCalls (heapExec 12) (heapInit iheapLess (fun _ => ⟨none, .red, none, none⟩) fun _ => 0)
      tiedCmds = some (heap, outs) ∧
      (heapSpec iheapLess).Conforms ⟨[], fun _ => 0⟩ tiedCmds outs ∧
      HeapHolds heap ((heapSpec iheapLess).after ⟨[], fun _ => 0⟩ tiedCmds) :=
  heap_ok iheapLess iheapLess_weak _ _ tiedCmds 12 (by decide) (by
    simp only [tiedCmds, Spec.LegalRun, heapSpec]
    decide)

end Skp.Adt
