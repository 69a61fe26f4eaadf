import Skp.Mm.UmallocRealloc

/-! # What `ucalloc` finds in its block

Neither `umalloc` nor a cache asks for cleared pages. What a block holds when it is handed out is
what was left in it, and an object's first word is the link to the next free one. -/
namespace Skp.Mm
set_option autoImplicit false
open Skp.Foundations
open Skp.Utils

variable {T : Type} [DecidableEq T] {s s' : UmallocState T} {b : UserBlock} {act : UmallocAct T}
    {t : T} {i : CacheIndex} {o : Obj}
  {m n size : ℕ}

/-- The step that ends `__ucalloc`, and the block it hands out. -/
def ucallocHands (s : UmallocState T) (t : T) (n size : ℕ) (act : UmallocAct T) : Option UserBlock :=
  (ucallocSize n size).bind fun m => umallocHands s t m act

/-- Of the first `n` bytes that the step is about to hand out, those behind a link have been left as
zeros, and the link is to an address that ends in zeros, or to no object. -/
def LeftZero (s : UmallocState T) (n : ℕ) : UmallocAct T → Prop
  | .slab i (.alloc t) => ∀ o rest, allocList (umallocParams i) (s.cache i) t = o :: rest →
      256 ^ min 8 n ∣ rest.head?.elim 0 (objAddr i) ∧ ∀ k, 8 ≤ k → k < n → s.mem (objAddr i o + k) = 0
  | .takePages b => ∀ k, k < n → s.mem (pageToVirt b.1 + k) = 0
  | _ => True

/-! ## The size -/

theorem ucallocSize_eq_some (h : ucallocSize n size = some m) : m = n * size ∧ n * size < 2 ^ 64 := by
  obtain ⟨hno, heq⟩ := Option.ite_none_left_eq_some.mp h
  obtain rfl := Option.some.inj heq
  have hlt : n * size < 2 ^ 64 := by
    by_cases hn : n = 0
    · subst hn
      simp
    · have hle : size ≤ (2 ^ 64 - 1) / n := Nat.not_lt.mp fun hlt => hno ⟨hn, hlt⟩
      have hmul := (Nat.le_div_iff_mul_le (Nat.pos_of_ne_zero hn)).mp hle
      rw [Nat.mul_comm] at hmul
      omega
  exact ⟨Nat.mod_eq_of_lt hlt, hlt⟩

omit [DecidableEq T] in
/-- A size that wraps is given an object of class 0. -/
theorem Handing.size_le_iff (hhand : Handing s t m act b) (hlt : m < 2 ^ 64) :
    m ≤ b.size ↔ m ≤ 2 ^ 64 - 8 := by
  refine ⟨fun hle => ?_, hhand.size_le hlt⟩
  by_contra hbig
  have hwraps := getIndex_wraps (Nat.not_le.mp hbig) hlt
  cases hhand with
  | obj i o hi ho =>
    have hzero : i.val = 0 := Option.some.inj (hi.symm.trans hwraps)
    have hsize : (classSizes 0).size = 896 := by decide
    have hle' : m ≤ (classSizes i.val).size := hle
    rw [hzero, hsize] at hle'
    omega
  | pages b hi hb =>
    rw [hwraps] at hi
    cases hi

/-! ## The bytes -/

omit [DecidableEq T] in
theorem linked_allocList (h : Threads s) (t : T) (i : CacheIndex) :
    Linked (freepointer i) (freeWord i s.mem) (allocList (umallocParams i) (s.cache i) t) := by
  rw [allocList]
  cases loadedPage (umallocParams i) (s.cache i) t with
  | none => trivial
  | some page =>
    have hlockless := h i (.lockless page) (by simp)
    simp only []
    cases hlist : (s.cache i).locklessFreelist page with
    | nil => exact h i (.free page) (by simp)
    | cons o rest =>
      have hobjs : objsAt (s.cache i) [] (.lockless page) = o :: rest := hlist
      rw [hobjs] at hlockless
      exact hlockless

omit [DecidableEq T] in
theorem Handing.zero_iff (h : Threads s) (hhand : Handing s t m act b) (n : ℕ) :
    (∀ k, k < n → s.mem (b.addr + k) = 0) ↔ LeftZero s n act := by
  cases hhand with
  | obj i o hi ho =>
    rw [handedObj_alloc] at ho
    obtain ⟨rest, hlist⟩ := List.head?_eq_some_iff.mp ho
    have hlinked := linked_allocList h t i
    rw [hlist] at hlinked
    have hword : freeWord i s.mem o = freepointer i rest.head? := hlinked.1
    have hbyte (k : ℕ) (hk : k < 8) : s.mem (objAddr i o + k) = 0 ↔
        (freepointer i rest.head?)[k]? = some 0 := by
      rw [← hword, freeWord, getElem?_readBytes hk, Option.some.injEq]
    have hlow : (∀ k, k < min 8 n → s.mem (objAddr i o + k) = 0) ↔
        256 ^ min 8 n ∣ rest.head?.elim 0 (objAddr i) := by
      rw [← leBytes_zero_iff (Nat.min_le_left 8 n)]
      exact forall₂_congr fun k hk => hbyte k (lt_of_lt_of_le hk (Nat.min_le_left 8 n))
    constructor
    · intro hall o' rest' hlist'
      obtain ⟨rfl, rfl⟩ := List.cons.inj (hlist.symm.trans hlist')
      rw [← hlow]
      exact ⟨fun k hk => hall k (lt_of_lt_of_le hk (Nat.min_le_right 8 n)), fun k _ hk => hall k hk⟩
    · intro hleft k hk
      obtain ⟨hfirst, hrest⟩ := hleft o rest hlist
      rw [← hlow] at hfirst
      by_cases hword : k < 8
      · exact hfirst k (lt_min hword hk)
      · exact hrest k (Nat.not_lt.mp hword) hk
  | pages b hi hb => exact Iff.rfl

/-- A result of `ucalloc` is large enough and reads as zeros exactly when the size does not wrap and
zeros were left in the block. -/
theorem ucalloc_zero_iff {acts : List (UmallocAct T)} (hrun : runActs umallocStep umallocInit acts = some s)
    (hhand : ucallocHands s t n size act = some b) (hs : umallocStep s act = some s') :
    (n * size ≤ usize s' b.addr ∧ ∀ k, k < n * size → s'.mem (b.addr + k) = 0) ↔
      n * size ≤ 2 ^ 64 - 8 ∧ LeftZero s (n * size) act := by
  obtain ⟨m, hm, hhand⟩ := Option.bind_eq_some_iff.mp hhand
  obtain ⟨rfl, hlt⟩ := ucallocSize_eq_some hm
  have hinv := umallocInv_run umallocInv_init hrun
  have hhanding := umallocHands_eq_some hhand
  obtain ⟨hheld, -, hmem⟩ := hinv.owners.handing_step hhanding hs
  rw [(umallocInv_step hinv hs).usize_eq hheld, hmem, hhanding.size_le_iff hlt,
    hhanding.zero_iff hinv.threads]

theorem first_ucalloc (n size : ℕ) (i : CacheIndex) (hi : (classOf i).order = 0) (t : T)
    (hsize : (ucallocSize n size).bind getIndex = some i.val) :
    ∃ (acts : List (UmallocAct T)) (s s' : UmallocState T), runActs umallocStep umallocInit acts = some s ∧
      ucallocHands s t n size (.slab i (.alloc t)) = some (.obj i (firstPage, 0)) ∧
        umallocStep s (.slab i (.alloc t)) = some s' ∧
      allocList (umallocParams i) (s.cache i) t = pageObjs (umallocParams i) firstPage := by
  obtain ⟨acts, s, s', hrun, hhanded, hlist, hs⟩ := first_object i hi t
  obtain ⟨m, hm, hindex⟩ := Option.bind_eq_some_iff.mp hsize
  refine ⟨acts, s, s', hrun, ?_, hs, hlist⟩
  rw [ucallocHands, hm, Option.bind_some, umallocHands, if_pos ⟨rfl, hindex⟩, hhanded]
  rfl

/-- The first page that the system gave is still clear. -/
theorem ucalloc_zero_iff_page :
    ∃ (acts : List (UmallocAct Unit)) (s s' : UmallocState Unit) (act : UmallocAct
      Unit) (b : UserBlock),
    runActs umallocStep umallocInit acts = some s ∧ ucallocHands s () 2 (2 ^ 21) act = some b ∧
      umallocStep s act = some s' ∧
      2 * 2 ^ 21 ≤ usize s' b.addr ∧ ∀ k, k < 2 * 2 ^ 21 → s'.mem (b.addr + k) = 0 := by
  obtain ⟨acts, n, hrun, halloc⟩ := first_page ()
  have hs : ∃ s', umallocStep (nodeState n) (.takePages (firstPage, 0)) = some s' :=
    ⟨_, if_pos ⟨halloc, nodeState_not_taken n _⟩⟩
  obtain ⟨s', hs⟩ := hs
  have hhand : ucallocHands (nodeState n) () 2 (2 ^ 21) (.takePages (firstPage, 0)) =
      some (.pages (firstPage, 0)) := rfl
  exact ⟨acts, _, s', _, _, hrun, hhand, hs, (ucalloc_zero_iff hrun hhand hs).mpr ⟨by decide, fun k _ => rfl⟩⟩

/-- The first object of 8 bytes holds the address of the second one. -/
theorem ucalloc_link :
    ∃ (acts : List (UmallocAct Unit)) (s s' : UmallocState Unit) (act : UmallocAct
      Unit) (b : UserBlock),
    runActs umallocStep umallocInit acts = some s ∧ ucallocHands s () 1 1 act = some b ∧
      umallocStep s act = some s' ∧
      ¬(1 * 1 ≤ usize s' b.addr ∧ ∀ k, k < 1 * 1 → s'.mem (b.addr + k) = 0) := by
  obtain ⟨acts, s, s', hrun, hhand, hs, hlist⟩ := first_ucalloc 1 1 ⟨3, by decide⟩ (by decide) () (by decide)
  refine ⟨acts, s, s', _, _, hrun, hhand, hs, fun hzero => ?_⟩
  obtain ⟨m, -, hhand⟩ := Option.bind_eq_some_iff.mp hhand
  have hinv := umallocInv_run umallocInv_init hrun
  have hhanding := umallocHands_eq_some hhand
  obtain ⟨-, -, hmem⟩ := hinv.owners.handing_step hhanding hs
  rw [hmem, hhanding.zero_iff hinv.threads] at hzero
  have hdvd := (hzero.2 (firstPage, 0) _ (hlist.trans (pageObjs_eq_cons _ _))).1
  have hsecond := pageObjs_second (c := umallocParams ⟨3, by decide⟩) (p := firstPage) (by decide)
  have haddr : objAddr ⟨3, by decide⟩ (firstPage, 1) = 549772591112 := by decide
  rw [hsecond, Option.elim_some, haddr] at hdvd
  revert hdvd
  decide

end Skp.Mm
