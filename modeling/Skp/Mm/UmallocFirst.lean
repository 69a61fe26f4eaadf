import Skp.Mm.UmallocDesc

/-! # The first object

The allocator does get somewhere: a node starts, one of its pages is freed and taken, and a thread
that loads it as a slab has its objects in the order of their addresses. -/
namespace Skp.Mm
set_option autoImplicit false
open Skp.Foundations

variable {T : Type} [DecidableEq T] {s s' : UmallocState T}

section Nodes
variable {c : BuddyParams} {n n' : BuddySys T}

/-- A page whose buddy is not free, freed as it is. -/
theorem buddyStep_free_page {t : T} {page : ℕ} (hin : (page, 0) ∈ n.alloc) (hgiving : n.giving t = none)
    (hbuddy : n.zone.buddy (page ^^^ 1) = false) (htop : 0 < c.top) :
    ∃ n', buddyStep c n (.free t page 0) = some n' ∧
      n'.zone.freeList 0 = page :: n.zone.freeList 0 ∧ 0 < n'.zone.nrFree 0 := by
  have hmerge (k : ℕ) (z : Zone) (hz : z.buddy (page ^^^ 1) = false) : mergeLoop k z page 0 =
      (z, page, 0) := by
    cases k with
    | zero => rfl
    | succ k =>
      rw [mergeLoop, pow_zero, if_neg]
      rw [pageOrder, hz, if_neg (by decide)]
      decide
  have hbulk : freePagesBulk c n.zone page 0 = (putHead { n.zone with
      hasFree := if n.zone.freePages = 0 then true else n.zone.hasFree
      freePages := n.zone.freePages + 2 ^ 0 } page 0, 0) := by
    rw [freePagesBulk]
    simp only []
    rw [hmerge]
    exact hbuddy
  refine ⟨_, by simp only [buddyStep, if_pos (And.intro hin hgiving), hbulk, if_pos htop]; rfl, ?_, ?_⟩
  · simp [putHead, putBlock, setPageOrder]
  · simp [putHead, putBlock, setPageOrder]

/-- The first page of a list that is not empty. -/
theorem buddyStep_rmqueue {order page : ℕ} {rest : List ℕ}
    (hlist : n.zone.freeList order = page :: rest) (hfree : 0 < n.zone.nrFree order)
    (hle : order ≤ c.top) : ∃ n', buddyStep c n (.rmqueue order) = some n' ∧ (page, order) ∈ n'.alloc := by
  have hfirst : firstFree n.zone (c.top + 1 - order) order = some order := by
    rw [Nat.succ_sub hle, firstFree, if_neg (Nat.ne_of_gt hfree)]
  rw [buddyStep, rmqueue, hfirst]
  simp only [hlist]
  exact ⟨_, rfl, Finset.mem_insert_self _ _⟩

theorem buddyStep_startup {i : ℕ} (hi : i < 1020) :
    ∃ n : BuddySys T, buddyStep x64Node buddyInit (.supply 0) = some n ∧
    (4 + i, 0) ∈ n.alloc ∧ n.giving = (fun _ => none) ∧ n.zone.buddy = fun _ => false := by
  have hnotUp : ¬(buddyInit : BuddySys T).hasUp = true := fun h => by cases h
  refine ⟨_, by rw [buddyStep, if_pos ⟨by decide, by decide, fun _ _ => rfl⟩, if_neg hnotUp], ?_, rfl, ?_⟩
  · exact Finset.mem_union_right _
      (Finset.mem_image.mpr ⟨i, Finset.mem_range.mpr hi, by rw [Nat.zero_add]; rfl⟩)
  · funext q
    simp [initVpages, buddyInit]

end Nodes

theorem umallocStep_of_slab {i : CacheIndex} {a : SlabAct T} {c : SlabState T} (hmay : s.MaySlab i a)
    (hc : slabStep (umallocParams i) (s.cache i) a = some c) :
    ∃ s', umallocStep s (.slab i a) = some s' ∧ s'.cache i = c := by
  rw [umallocStep, if_pos hmay, hc]
  exact ⟨_, rfl, Function.update_self ..⟩

/-- Node 1 is the only one that has been used. -/
def nodeState (n : BuddySys T) : UmallocState T :=
  { umallocInit with node := Function.update umallocInit.node 1 n }

omit [DecidableEq T] in
@[simp] theorem nodeState_node (n : BuddySys T) : (nodeState n).node 1 = n := by
  simp [nodeState]

omit [DecidableEq T] in
theorem nodeState_not_taken (n : BuddySys T) (b : ℕ × ℕ) : ¬(nodeState n).Taken b := by
  rintro (hb | ⟨j, hp, -⟩)
  · cases hb
  · cases hp

theorem nodeState_run {acts : List (BuddyAct T)} {n n' : BuddySys T}
    (hrun : runActs (buddyStep x64Node) n acts = some n') :
    runActs umallocStep (nodeState n) (acts.map (UmallocAct.page 1)) = some (nodeState n') := by
  induction acts generalizing n with
  | nil =>
    obtain rfl := Option.some.inj hrun
    rfl
  | cons a acts ih =>
    obtain ⟨n₁, hn, hrest⟩ := runActs_cons_eq_some.mp hrun
    have hmay : (nodeState n).MayPage 1 a := by
      cases a with
      | free t page order => exact nodeState_not_taken n _
      | supply base => exact Or.inl Nat.one_ne_zero
      | rmqueue order => trivial
      | giveBack t => trivial
    refine runActs_cons_eq_some.mpr ⟨nodeState n₁, ?_, ih hrest⟩
    rw [umallocStep, if_pos ⟨by decide, hmay⟩, nodeState_node, hn]
    show some (UmallocState.mk (Function.update (Function.update umallocInit.node 1 n) 1 n₁) _ _ _ _) = some _
    rw [Function.update_idem]
    rfl

/-- The page that the first object lies on: the first of node 1 behind the reserved ones. -/
def firstPage : ℕ := x64Node.nodePages + 4

theorem pageObjs_eq_cons (c : CacheParams) (p : ℕ) : pageObjs c p = (p, 0) :: (pageObjs c p).tail := by
  obtain ⟨m, hm⟩ := Nat.exists_eq_add_of_lt c.objects_pos
  simp [pageObjs, hm, List.range_succ_eq_map]

theorem pageObjs_second {c : CacheParams} {p : ℕ} (hobjects : 1 < c.objects) :
    (pageObjs c p).tail.head? = some (p, 1) := by
  rw [List.head?_eq_getElem?, List.getElem?_tail, pageObjs, List.getElem?_map, List.getElem?_range hobjects]
  rfl

/-- The first slab of a cache, loaded by `t`. -/
theorem slabStep_first (c : CacheParams) (t : T) (p : ℕ) :
    ∃ s s' : SlabState T, slabStep c slabInit (.loadNew t p) = some s ∧
    allocList c s t = pageObjs c p ∧ slabStep c s (.alloc t) = some s' := by
  have hnone : loadedPage c (slabInit : SlabState T) t = none := by
    rw [loadedPage]
    split_ifs <;> rfl
  let s : SlabState T := lockAndFreezeSlab c (newSlab c slabInit p) t p
  have hload : slabStep c slabInit (.loadNew t p) = some s := if_pos ⟨hnone, Finset.notMem_empty _⟩
  have hloaded : loadedPage c s t = some p := by
    rw [loadedPage]
    split_ifs with hlockless <;> simp [s, lockAndFreezeSlab, setLoaded, hlockless]
  have hempty : s.locklessFreelist p = [] := by simp [s, lockAndFreezeSlab, newSlab]
  have hobjs : s.freelist p = pageObjs c p := by simp [s, lockAndFreezeSlab, newSlab, pageObjs]
  have halloc : ∃ s', slabStep c s (.alloc t) = some s' := by
    rw [slabStep, allocObject, hloaded]
    simp only [hempty, hobjs]
    rw [pageObjs_eq_cons]
    exact ⟨_, rfl⟩
  obtain ⟨s', hs'⟩ := halloc
  refine ⟨s, s', hload, ?_, hs'⟩
  rw [allocList, hloaded]
  simp only [hempty, hobjs]

theorem slabStep_alloc_cons {c : CacheParams} {k : SlabState T} {t : T} {o : Obj} {rest : List Obj}
    (hlist : allocList c k t = o :: rest) :
    ∃ k', slabStep c k (.alloc t) = some k' ∧ (rest ≠ [] → allocList c k' t = rest) := by
  have hstep : ∃ page k', slabStep c k (.alloc t) = some k' ∧ loadedPage c k' t = some page ∧
      k'.locklessFreelist page = rest := by
    cases hloaded : loadedPage c k t with
    | none =>
      rw [allocList, hloaded] at hlist
      cases hlist
    | some page =>
      simp only [allocList, hloaded] at hlist
      cases hlockless : k.locklessFreelist page with
      | cons o' objs =>
        simp only [hlockless] at hlist
        obtain ⟨rfl, rfl⟩ := List.cons.inj hlist
        rw [slabStep, allocObject, hloaded]
        simp only [hlockless]
        exact ⟨page, _, rfl, hloaded, Function.update_self ..⟩
      | nil =>
        simp only [hlockless] at hlist
        rw [slabStep, allocObject, hloaded]
        simp only [hlockless, hlist]
        exact ⟨page, _, rfl, hloaded, Function.update_self ..⟩
  obtain ⟨page, k', hs, hloaded, hobjs⟩ := hstep
  refine ⟨k', hs, fun hrest => ?_⟩
  simp only [allocList, hloaded, hobjs]

theorem first_page (t : T) : ∃ (acts : List (UmallocAct T)) (n : BuddySys T),
    runActs umallocStep umallocInit acts = some (nodeState n) ∧ (nodeState n).Allocated (firstPage, 0) := by
  obtain ⟨n₁, hsupply, hin, hgiving, hbuddy⟩ := buddyStep_startup (T := T) (show 0 < 1020 by decide)
  obtain ⟨n₂, hfree, hlist, hnr⟩ :=
    buddyStep_free_page (c := x64Node) (t := t) hin (congrFun hgiving t)
      (congrFun hbuddy _) (by decide)
  obtain ⟨n₃, hpage, halloc⟩ := buddyStep_rmqueue (c := x64Node) hlist hnr (Nat.zero_le _)
  have hnodes : runActs (buddyStep x64Node) buddyInit [.supply 0, .free t 4 0, .rmqueue 0] = some n₃ :=
    runActs_cons_eq_some.mpr ⟨n₁, hsupply,
      runActs_cons_eq_some.mpr ⟨n₂, hfree, runActs_cons_eq_some.mpr ⟨n₃, hpage, rfl⟩⟩⟩
  have hinit : nodeState (buddyInit : BuddySys T) = umallocInit := by
    have hsame : Function.update umallocInit.node 1 (buddyInit : BuddySys T) = umallocInit.node :=
      Function.update_eq_self 1 _
    rw [nodeState, hsame]
  refine ⟨_, n₃, hinit ▸ nodeState_run hnodes, ?_⟩
  have hnode : firstPage / x64Node.nodePages = 1 := by decide
  have hfirst : firstPage % x64Node.nodePages = 4 := by decide
  rw [UmallocState.Allocated, hnode, hfirst, nodeState_node]
  exact halloc

theorem first_object (i : CacheIndex) (hi : (classOf i).order = 0) (t : T) :
    ∃ (acts : List (UmallocAct T)) (s s' : UmallocState T),
    runActs umallocStep umallocInit acts = some s ∧
      handedObj (umallocParams i) (s.cache i) (.alloc t) = some (firstPage, 0) ∧
      allocList (umallocParams i) (s.cache i) t = pageObjs (umallocParams i) firstPage ∧
      umallocStep s (.slab i (.alloc t)) = some s' := by
  obtain ⟨acts, n, hrun, halloc⟩ := first_page t
  obtain ⟨c, c', hload, hobjs, hc'⟩ := slabStep_first (umallocParams i) t firstPage
  have hmay : (nodeState n).MaySlab i (.loadNew t firstPage) := by
    intro p hp
    obtain rfl := Option.some.inj hp
    rw [slabBlock, hi]
    exact ⟨halloc, nodeState_not_taken n _⟩
  obtain ⟨s, hs, hcache⟩ :=
    umallocStep_of_slab hmay (show slabStep _ ((nodeState n).cache i) _ = some c from hload)
  obtain ⟨s', hs', -⟩ := umallocStep_of_slab (s := s) (i := i) (fun p hp => by cases hp) (hcache ▸ hc')
  refine ⟨acts ++ [.slab i (.loadNew t firstPage)], s, s', ?_, ?_, ?_, hs'⟩
  · rw [runActs_append, hrun]
    exact runActs_cons_eq_some.mpr ⟨s, hs, rfl⟩
  · rw [hcache, handedObj_alloc, hobjs, pageObjs_eq_cons]
    rfl
  · rw [hcache, hobjs]

end Skp.Mm
