import Skp.Adt.DictRefine

/-! # Iteration over the dict

`dict_iter_init`, `dict_iter_next` and the loop of `dict_release`. The iterator keeps the node to
yield next; where it goes on is read off the table bit and the bucket index of the node it yields.
-/
namespace Skp.Adt
set_option autoImplicit false
open Skp.Foundations

variable {K N : Type} [DecidableEq N]

/-- The `next` link of a node in its chain. -/
def chainNext (chain : List N) (n : N) : Option N := chain[chain.idxOf n + 1]?

/-- `dict_iter_init`; the outer `none` is a read past the bucket array or the `BUG_ON`. -/
def dictIterInit (d : Dict K N) : Option (Option N) :=
  if d.nodes = 0 then some none
  else
    let bit := findNextBit d.activeTab.mapping d.activeTab.size 0
    if d.activeTab.size ≤ bit then none else (d.activeTab.bucket bit).head?.map some

/-- The first node of a table from a bucket on, as `find_next_bit` finds it. -/
def firstFrom (t : DictTable N) (bit : ℕ) : Option (Option N) :=
  let bit := findNextBit t.mapping t.size bit
  if t.size ≤ bit then none else some (t.bucket bit).head?

/-- The label `try` of `dict_iter_next`: after the active table comes the other one. -/
def iterTry (d : Dict K N) (tab : Bool) : Option N :=
  if tab = d.rehash ∨ ¬ d.isRehashing then none else (firstFrom d.rehashTab 0).getD none

/-- The new `next` of the iterator when it yields `n`. -/
def dictIterNext (d : Dict K N) (n : N) : Option N :=
  let tab := (d.node n).whichb
  let bit := (d.node n).bindex
  match chainNext ((d.tables tab).bucket bit) n with
  | some m => some m
  | none =>
      if (d.tables tab).size ≤ bit then iterTry d tab
      else (firstFrom (d.tables tab) (bit + 1)).getD (iterTry d tab)

/-- The iterator yields these nodes and then `NULL`. -/
def IterPath (d : Dict K N) : Option N → List N → Prop
  | next, [] => next = none
  | next, n :: ns => next = some n ∧ IterPath d (dictIterNext d n) ns

/-- The body of `dict_release` with a free function: a node is counted out of its table and freed. -/
def releaseNode (d : Dict K N) (n : N) : Dict K N :=
  let w := (d.node n).whichb
  d.setTable w { d.tables w with nrNodes := dec32 (d.tables w).nrNodes }

/-- The end of `dict_release`. -/
def releaseTables (d : Dict K N) : Dict K N :=
  let d := tableRelease d d.active
  let d := if d.isRehashing then tableRelease d d.rehash else d
  { d with rehashidx := -1 }

/-- `dict_release` frees these nodes and then the tables, from a state to a state. -/
def ReleasePath : Dict K N → Option N → List N → Dict K N → Prop
  | d, next, [], d' => next = none ∧ d' = releaseTables d
  | d, next, n :: ns, d' => next = some n ∧ ReleasePath (releaseNode d n) (dictIterNext d n) ns d'

/-! ## The order of the nodes -/

/-- The nodes of the buckets from `i` on. -/
def nodesFrom (t : DictTable N) (i : ℕ) : List N := (List.range' i (t.size - i)).flatMap t.bucket

/-- What comes after a table. -/
def restOf (d : Dict K N) (w : Bool) : List N :=
  if w = d.rehash ∨ ¬ d.isRehashing then [] else nodesFrom d.rehashTab 0

def allNodes (d : Dict K N) : List N := nodesFrom d.activeTab 0 ++ restOf d d.active

omit [DecidableEq N] in
theorem nodesFrom_step (t : DictTable N) {i : ℕ} (hi : i < t.size) :
    nodesFrom t i = t.bucket i ++ nodesFrom t (i + 1) := by
  have hrange : List.range' i (t.size - i) = i :: List.range' (i + 1) (t.size - (i + 1)) := by
    rw [← List.range'_succ]
    congr 1
    omega
  rw [nodesFrom, hrange, List.flatMap_cons, nodesFrom]

omit [DecidableEq N] in
theorem nodesFrom_end (t : DictTable N) {i : ℕ} (hi : t.size ≤ i) : nodesFrom t i = [] := by
  rw [nodesFrom, Nat.sub_eq_zero_of_le hi]
  rfl

section Table
variable {ops : DictOps K} {node : N → DictNode K} {w : Bool} {t : DictTable N}

omit [DecidableEq N] in
theorem firstFrom_eq (h : TableWf ops node w t) :
    ∀ (k i : ℕ), t.size - i = k → (firstFrom t i).getD none = (nodesFrom t i).head? ∧
      (firstFrom t i = none ↔ nodesFrom t i = []) := by
  intro k
  induction k with
  | zero =>
    intro i hk
    have hend : findNextBit t.mapping t.size i = t.size := by
      rw [findNextBit, hk]
      rfl
    rw [firstFrom, hend, if_pos le_rfl, nodesFrom_end t (by omega)]
    exact ⟨rfl, iff_of_true rfl rfl⟩
  | succ k ih =>
    intro i hk
    have hrange : List.range' i (t.size - i) = i :: List.range' (i + 1) (t.size - (i + 1)) := by
      rw [← List.range'_succ]
      congr 1
      omega
    rw [nodesFrom_step t (by omega)]
    cases hb : t.bucket i with
    | nil =>
      have hclear : t.mapping i = false := Bool.eq_false_iff.mpr fun hm => (h.mapping i).mp hm hb
      have hskip : firstFrom t i = firstFrom t (i + 1) := by
        rw [firstFrom, firstFrom, findNextBit, findNextBit, hrange,
          List.find?_cons_of_neg (by rw [hclear]; decide)]
      rw [hskip]
      exact ih (i + 1) (by omega)
    | cons n c =>
      have hset : t.mapping i = true := (h.mapping i).mpr (by rw [hb]; exact List.cons_ne_nil n c)
      have hfound : findNextBit t.mapping t.size i = i := by
        rw [findNextBit, hrange, List.find?_cons_of_pos hset]
        rfl
      rw [firstFrom, hfound, if_neg (by omega), hb]
      exact ⟨rfl, iff_of_false (fun h => by cases h) (fun h => by cases h)⟩

end Table

theorem chainNext_append {pre post : List N} {n : N} (hnd : (pre ++ n :: post).Nodup) :
    chainNext (pre ++ n :: post) n = post.head? := by
  have hpre : n ∉ pre := fun hmem =>
    (List.nodup_append.mp hnd).2.2 n hmem n List.mem_cons_self rfl
  rw [chainNext, List.idxOf_append_of_notMem hpre, List.idxOf_cons_self,
    List.getElem?_append_right (by omega)]
  simp [List.head?_eq_getElem?]

section Iter
variable {ops : DictOps K} {d : Dict K N}

omit [DecidableEq N] in
theorem iterTry_eq (h : DictInv ops d) (w : Bool) : iterTry d w = (restOf d w).head? := by
  unfold iterTry restOf
  split
  · rfl
  · exact ((firstFrom_eq (h.table d.rehash) _ 0 rfl).1)

theorem dictIterNext_eq (h : DictInv ops d) {w : Bool} {i : ℕ} {pre post : List N} {n : N}
    (hb : (d.tables w).bucket i = pre ++ n :: post) :
    dictIterNext d n = (post ++ (nodesFrom (d.tables w) (i + 1) ++ restOf d w)).head? := by
  have hn : n ∈ (d.tables w).bucket i := by simp [hb]
  have hat := (h.table w).place i n hn
  have hi : i < (d.tables w).size := (h.table w).inside i (List.ne_nil_of_mem hn)
  have hchain : chainNext ((d.tables w).bucket i) n = post.head? := by
    have hnd := (h.table w).nodup i
    rw [hb] at hnd ⊢
    exact chainNext_append hnd
  unfold dictIterNext
  rw [hat.whichb, hat.bindex]
  dsimp only
  rw [hchain]
  cases post with
  | cons m post => rfl
  | nil =>
    obtain ⟨hhead, hnone⟩ := firstFrom_eq (h.table w) _ (i + 1) rfl
    change (if (d.tables w).size ≤ i then _ else _) = _
    rw [if_neg (by omega), List.nil_append]
    cases hf : firstFrom (d.tables w) (i + 1) with
    | none =>
      rw [Option.getD_none, hnone.mp hf, List.nil_append, iterTry_eq h]
    | some r =>
      have hne : nodesFrom (d.tables w) (i + 1) ≠ [] := fun hnil => by
        rw [hnone.mpr hnil] at hf
        cases hf
      rw [hf] at hhead
      rw [Option.getD_some, List.head?_append_of_ne_nil _ hne]
      exact hhead

theorem iterPath_chain (h : DictInv ops d) {w : Bool} {i : ℕ} {rest : List N}
    (hrest : rest = nodesFrom (d.tables w) (i + 1) ++ restOf d w) (hpath : IterPath d rest.head? rest) :
    ∀ (post pre : List N), (d.tables w).bucket i = pre ++ post →
      IterPath d (post ++ rest).head? (post ++ rest) := by
  intro post
  induction post with
  | nil => exact fun _ _ => hpath
  | cons n post ih =>
    intro pre hb
    refine ⟨rfl, ?_⟩
    rw [dictIterNext_eq h hb, ← hrest]
    exact ih (pre ++ [n]) (by rw [hb, List.append_assoc]; rfl)

theorem iterPath_nodesFrom (h : DictInv ops d) (w : Bool)
    (hpath : IterPath d (restOf d w).head? (restOf d w)) :
    ∀ (k i : ℕ), (d.tables w).size - i = k →
      IterPath d (nodesFrom (d.tables w) i ++ restOf d w).head? (nodesFrom (d.tables w) i ++ restOf d w) := by
  intro k
  induction k with
  | zero =>
    intro i hk
    rw [nodesFrom_end _ (by omega)]
    exact hpath
  | succ k ih =>
    intro i hk
    rw [nodesFrom_step _ (by omega), List.append_assoc]
    exact iterPath_chain h rfl (ih (i + 1) (by omega)) _ [] rfl

theorem iterPath_allNodes (h : DictInv ops d) : IterPath d (allNodes d).head? (allNodes d) := by
  have hrehash : restOf d d.rehash = [] := if_pos (Or.inl rfl)
  have hlast : IterPath d (restOf d d.active).head? (restOf d d.active) := by
    by_cases hr : d.isRehashing = true
    · have hrest : restOf d d.active = nodesFrom (d.tables d.rehash) 0 ++ restOf d d.rehash := by
        rw [hrehash, List.append_nil]
        refine if_neg ?_
        rintro (he | hn)
        · exact rehash_ne_active d he.symm
        · exact hn hr
      rw [hrest]
      exact iterPath_nodesFrom h d.rehash (by rw [hrehash]; rfl) _ 0 rfl
    · have hrest : restOf d d.active = [] := if_pos (Or.inr hr)
      rw [hrest]
      rfl
  exact iterPath_nodesFrom h d.active hlast _ 0 rfl

section
omit [DecidableEq N]

theorem mem_nodesFrom_zero {w : Bool} {t : DictTable N} {node : N → DictNode K}
    (h : TableWf ops node w t) (n : N) :
    n ∈ nodesFrom t 0 ↔ t.Holds n := by
  rw [nodesFrom, List.mem_flatMap]
  constructor
  · rintro ⟨i, -, hi⟩
    exact ⟨i, hi⟩
  · rintro ⟨i, hi⟩
    have hlt := h.inside i (List.ne_nil_of_mem hi)
    exact ⟨i, List.mem_range'_1.mpr ⟨Nat.zero_le i, by omega⟩, hi⟩

theorem nodesFrom_zero_nodup {w : Bool} {t : DictTable N} {node : N → DictNode K} (h : TableWf ops node w t) :
    (nodesFrom t 0).Nodup := by
  rw [nodesFrom, List.nodup_flatMap]
  refine ⟨fun i _ => h.nodup i, List.Pairwise.imp (fun hij => ?_) (List.nodup_range' (h := Nat.one_pos))⟩
  intro n hi hj
  exact hij (h.index_unique hi hj)

theorem restOf_active (d : Dict K N) :
    restOf d d.active = if d.isRehashing = true then nodesFrom d.rehashTab 0 else [] := by
  unfold restOf
  have hne : d.active ≠ d.rehash := fun he => rehash_ne_active d he.symm
  by_cases hr : d.isRehashing = true
  · rw [if_pos hr, if_neg (by simp [hne, hr])]
  · rw [if_neg hr, if_pos (Or.inr hr)]

theorem mem_restOf_active (h : DictInv ops d) (n : N) : n ∈ restOf d d.active ↔ d.rehashTab.Holds n := by
  rw [restOf_active d]
  by_cases hr : d.isRehashing = true
  · rw [if_pos hr]
    exact mem_nodesFrom_zero (h.table d.rehash) n
  · rw [if_neg hr]
    refine iff_of_false List.not_mem_nil fun hn => ?_
    rcases h.live_of_holds hn with he | he
    · exact rehash_ne_active d he
    · exact hr he

theorem mem_allNodes (h : DictInv ops d) (n : N) : n ∈ allNodes d ↔ (d.node n).linked = true := by
  rw [allNodes, List.mem_append, mem_restOf_active h]
  constructor
  · rintro (hn | hn)
    · exact h.linked_of_holds ((mem_nodesFrom_zero (h.table d.active) n).mp hn)
    · exact h.linked_of_holds hn
  · intro hn
    obtain ⟨w, hw⟩ := h.linked n hn
    rcases eq_active_or_rehash d w with rfl | rfl
    · exact Or.inl ((mem_nodesFrom_zero (h.table d.active) n).mpr hw)
    · exact Or.inr hw

theorem allNodes_nodup (h : DictInv ops d) : (allNodes d).Nodup := by
  refine List.nodup_append.mpr ⟨nodesFrom_zero_nodup (h.table d.active), ?_, ?_⟩
  · rw [restOf_active d]
    split
    · exact nodesFrom_zero_nodup (h.table d.rehash)
    · exact List.nodup_nil
  · rintro m hm n hn rfl
    have hact := (mem_nodesFrom_zero (h.table d.active) m).mp hm
    have hreh := (mem_restOf_active h m).mp hn
    exact rehash_ne_active d (h.table_unique hreh hact)

/-- `dict_iter_init` starts at the first node unless the active table holds none of the nodes. -/
theorem dictIterInit_eq (h : DictInv ops d) :
    dictIterInit d = if d.nodes = 0 then some none
      else if d.activeTab.nrNodes = 0 then none else some (allNodes d).head? := by
  have hinit : dictIterInit d = if d.nodes = 0 then some none
      else (firstFrom d.activeTab 0).bind fun r => r.map some := by
    unfold dictIterInit firstFrom
    split
    · rfl
    · dsimp only
      split
      · rfl
      · rfl
  obtain ⟨hhead, hnone⟩ := firstFrom_eq (h.table d.active) _ 0 rfl
  rw [hinit]
  congr 1
  by_cases hact : d.activeTab.nrNodes = 0
  · have hnil : nodesFrom d.activeTab 0 = [] := by
      rw [List.eq_nil_iff_forall_not_mem]
      intro n hn
      exact (h.table d.active).not_holds_of_empty hact n ((mem_nodesFrom_zero (h.table d.active) n).mp hn)
    have hfirst : firstFrom d.activeTab 0 = none := hnone.mpr hnil
    rw [if_pos hact, hfirst]
    rfl
  · have hne : nodesFrom d.activeTab 0 ≠ [] := fun hnil => by
      have hload := (h.table d.active).count
      obtain ⟨i, hi, hb⟩ := chainLoad_pos (hload ▸ hact)
      obtain ⟨n, hn⟩ := List.exists_mem_of_ne_nil _ hb
      have hmem := (mem_nodesFrom_zero (h.table d.active) n).mpr ⟨i, hn⟩
      exact List.not_mem_nil (hnil ▸ hmem)
    have hsome : (allNodes d).head? = some ((nodesFrom d.activeTab 0).head hne) :=
      (List.head?_append_of_ne_nil _ hne).trans (List.head?_eq_some_head hne)
    have hfirst : firstFrom d.activeTab 0 = some (some ((nodesFrom d.activeTab 0).head hne)) := by
      obtain ⟨r, hr⟩ : ∃ r, firstFrom d.activeTab 0 = some r :=
        Option.ne_none_iff_exists'.mp fun hf => hne (hnone.mp hf)
      have hval : (firstFrom d.activeTab 0).getD none = _ := hhead.trans (List.head?_eq_some_head hne)
      rw [hr] at hval ⊢
      exact congrArg some hval
    rw [if_neg hact, hfirst, hsome]
    rfl

end

/-! ## Release -/

/-- Two states that differ in the counters of their tables only. -/
structure SameChains (d d' : Dict K N) : Prop where
  rehashidx : d'.rehashidx = d.rehashidx
  active : d'.active = d.active
  node : d'.node = d.node
  size : ∀ w, (d'.tables w).size = (d.tables w).size
  bucket : ∀ w, (d'.tables w).bucket = (d.tables w).bucket
  mapping : ∀ w, (d'.tables w).mapping = (d.tables w).mapping

omit [DecidableEq N] in
theorem SameChains.refl (d : Dict K N) : SameChains d d :=
  ⟨rfl, rfl, rfl, fun _ => rfl, fun _ => rfl, fun _ => rfl⟩

omit [DecidableEq N] in
theorem SameChains.releaseNode {d d' : Dict K N} (h : SameChains d d') (n : N) :
    SameChains d (releaseNode d' n) := by
  have htab : ∀ w, ((Adt.releaseNode d' n).tables w).size = (d'.tables w).size ∧
      ((Adt.releaseNode d' n).tables w).bucket = (d'.tables w).bucket ∧
      ((Adt.releaseNode d' n).tables w).mapping = (d'.tables w).mapping := fun w => by
    by_cases hw : w = (d'.node n).whichb
    · subst hw
      simp [Adt.releaseNode, Dict.setTable]
    · simp [Adt.releaseNode, Dict.setTable, hw]
  exact ⟨h.rehashidx, h.active, h.node, fun w => (htab w).1.trans (h.size w),
    fun w => (htab w).2.1.trans (h.bucket w),
    fun w => (htab w).2.2.trans (h.mapping w)⟩

omit [DecidableEq N] in
theorem firstFrom_sameChains {t t' : DictTable N} (hs : t'.size = t.size) (hb : t'.bucket = t.bucket)
    (hm : t'.mapping = t.mapping) (bit : ℕ) : firstFrom t' bit = firstFrom t bit := by
  rw [firstFrom, firstFrom, hs, hb, hm]

theorem SameChains.dictIterNext {d d' : Dict K N} (h : SameChains d d') (n : N) :
    dictIterNext d' n = dictIterNext d n := by
  have hfirst := fun w => firstFrom_sameChains (h.size w) (h.bucket w) (h.mapping w)
  have hreh : d'.rehash = d.rehash := congrArg not h.active
  have htry : ∀ w, iterTry d' w = iterTry d w := fun w => by
    unfold iterTry Dict.isRehashing
    rw [hreh, h.rehashidx]
    change (if _ then none else (firstFrom (d'.tables d'.rehash) 0).getD none) = _
    rw [hreh, hfirst]
    rfl
  unfold Adt.dictIterNext
  rw [h.node]
  dsimp only
  rw [h.bucket, h.size, hfirst, htry]

theorem releasePath_of_iterPath {d : Dict K N} :
    ∀ (ns : List N) (d' : Dict K N) (next : Option N), SameChains d d' → IterPath d next ns →
      ∃ d'', ReleasePath d' next ns d'' := by
  intro ns
  induction ns with
  | nil => exact fun d' next _ hpath => ⟨releaseTables d', hpath, rfl⟩
  | cons n ns ih =>
    intro d' next hsame hpath
    obtain ⟨hnext, hrest⟩ := hpath
    rw [← hsame.dictIterNext n] at hrest
    obtain ⟨d'', hd''⟩ := ih (Adt.releaseNode d' n) (dictIterNext d' n) (hsame.releaseNode n) hrest
    exact ⟨d'', hnext, hd''⟩

end Iter

/-! ## Runs -/

/-- An iteration starts, yields the nodes of `held` once each and ends, and so does a release. -/
def IteratesAll (d : Dict K N) (held : N → Prop) : Prop :=
  ∃ start ns, dictIterInit d = some start ∧ IterPath d start ns ∧ ns.Nodup ∧ (∀ n, n ∈ ns ↔ held n) ∧
    ∃ d', ReleasePath d start ns d'

/-- After `dict_init` and any legal run of calls, an iteration and a release see every node exactly
once if and only if the active table holds a node or the dict holds none. -/
theorem dict_iterates_iff [DecidableEq K] {ops : DictOps K} (hops : ops.Lawful) (debug : Bool)
    (attr : DictAttr)
    (hattr : attr.initSize ≤ 2 ^ 31) (mem : N → DictNode K) (hmem : ∀ n, (mem n).linked = false)
    (mapOk bucketOk : Bool) {d : Dict K N} (h0 : dictInit attr mem mapOk bucketOk = some d)
    (cs : List (DictCmd K N))
    (hcs : dictSpec.LegalRun { map := ∅, key := fun n => (mem n).key } cs) :
    let r := (runCmds (dictExec ops debug) d cs).1
    let m := dictSpec.after { map := ∅, key := fun n => (mem n).key } cs
    IteratesAll r m.Bound ↔ r.activeTab.nrNodes ≠ 0 ∨ r.nodes = 0 := by
  intro r m
  have hinit : DictRefines ops d { map := ∅, key := fun n => (mem n).key } := dictInit_refines hattr hmem h0
  obtain ⟨-, hfin⟩ :=
    Spec.conforms (fun s a c hR hl => dictExec_refines hops debug s a c hR hl) cs d _ hinit hcs
  have hstart := dictIterInit_eq hfin.inv
  have hheld : ∀ n, n ∈ allNodes r ↔ m.Bound n := fun n => (mem_allNodes hfin.inv n).trans (hfin.linked n)
  constructor
  · rintro ⟨start, ns, hs, -⟩
    by_contra hcond
    rw [not_or, not_not] at hcond
    rw [if_neg hcond.2, if_pos hcond.1] at hstart
    cases hstart.symm.trans hs
  · intro hcond
    have hhead : dictIterInit r = some (allNodes r).head? := by
      by_cases hz : r.nodes = 0
      · have hnil : allNodes r = [] := by
          rw [List.eq_nil_iff_forall_not_mem]
          intro n hn
          have hcard : m.map.keys.card = 0 := by rw [← hfin.nodes_eq, hz]
          have hkey : m.key n ∈ m.map.keys := by
            rw [Finmap.mem_keys, mem_map_iff_lookup, (hheld n).mp hn]
            exact Option.some_ne_none n
          rw [Finset.card_eq_zero.mp hcard] at hkey
          exact Finset.notMem_empty _ hkey
        rw [hnil]
        exact hstart.trans (if_pos hz)
      · exact hstart.trans ((if_neg hz).trans (if_neg (hcond.resolve_right hz)))
    have hpath := iterPath_allNodes hfin.inv
    exact ⟨_, allNodes r, hhead, hpath, allNodes_nodup hfin.inv, hheld,
      releasePath_of_iterPath _ r _ (SameChains.refl r) hpath⟩

/-- Four entries in one bucket: the last insertion starts a move and goes to the new table. -/
theorem dict_iterates_mid_move :
    (runCmds (dictExec natOps false) (natDict 2) ((List.range 4).map natInsert)).1.isRehashing = true ∧
      IteratesAll (runCmds (dictExec natOps false) (natDict 2) ((List.range 4).map natInsert)).1
        (dictSpec.after natAbs ((List.range 4).map natInsert)).Bound := by
  refine ⟨by decide +kernel, ?_⟩
  exact (dict_iterates_iff natOps_lawful false { expandRatio := 2, reduceRatio := 1, initSize := 1 }
    (by decide) natMem
    (fun _ => rfl) true true (natDict_init (by decide)) _ (legalRun_natInserts 4 (by omega))).mpr
      (Or.inl (by decide +kernel))

/-- The three entries that are still in the old table are removed: one is held, and `dict_iter_init`
reads past the bucket array. -/
theorem dict_iter_init_past_end :
    let cs := (List.range 4).map natInsert ++ (List.range 3).map fun i => DictCmd.directRemove i true true
    dictInit { expandRatio := 2, reduceRatio := 1, initSize := 1 } natMem true true = some (natDict 2) ∧
      dictSpec.LegalRun natAbs cs ∧ (runCmds (dictExec natOps false) (natDict 2) cs).1.nodes = 1 ∧
      dictIterInit (runCmds (dictExec natOps false) (natDict 2) cs).1 = none := by
  refine ⟨natDict_init (by decide), ?_, by decide +kernel, by decide +kernel⟩
  exact dictSpec.legalRun_append.mpr ⟨legalRun_natInserts 4 (by omega), trivial, trivial, trivial, trivial⟩

end Skp.Adt
