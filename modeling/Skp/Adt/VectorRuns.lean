import Skp.Adt.VectorSteps
import Skp.Foundations.Runs

/-! # The vector is a list without duplicates

In every run of calls whose products of a count and the element size do not wrap, and which find
room for a new element where `__expand` leaves off, a family of vectors is a family of lists, and no
access is outside a block. -/
namespace Skp.Adt
set_option autoImplicit false
open Skp.Foundations

variable {K : Type*} {ops : VectorOps K} {v : Vec} {es : ℕ} {debug : Bool}

/-- What a call does to the lists. It fails only where `malloc` has returned `NULL`. -/
inductive ListStep (ops : VectorOps K) (l : ℕ → List (List UInt8)) :
    VecCall K es → VecOut → (ℕ → List (List UInt8)) → Prop where
  | present {i : ℕ} {e : { bs : List UInt8 // bs.length = es }} {a : Malloc} {x : List UInt8} :
      x ∈ l i → ops.keyOf x = ops.keyOf e.1 →
      ListStep ops l (.insert i e a) (.present x) l
  | added {i : ℕ} {e : { bs : List UInt8 // bs.length = es }} {a : Malloc} :
      (∀ x, x ∈ l i → ops.keyOf x ≠ ops.keyOf e.1) →
      ListStep ops l (.insert i e a) .added (Function.update l i (l i ++ [e.1]))
  | insertFails {i : ℕ} {e : { bs : List UInt8 // bs.length = es }} {a : Malloc} :
      (∀ x, x ∈ l i → ops.keyOf x ≠ ops.keyOf e.1) →
      a.addr = 0 → ListStep ops l (.insert i e a) .noMemory l
  | removed {i : ℕ} {key : K} {want : Bool} {xs ys : List (List UInt8)} {x : List UInt8} :
      l i = xs ++ x :: ys → ops.keyOf x = key →
      ListStep ops l (.remove i key want) (.removed (if want then some x else none))
        (Function.update l i (xs ++ ys))
  | absent {i : ℕ} {key : K} {want : Bool} :
      (∀ x, x ∈ l i → ops.keyOf x ≠ key) → ListStep ops l (.remove i key want) .noEntry l
  | copied {dst src : ℕ} {a : Malloc} :
      ListStep ops l (.copy dst src a) .copied (if l src = [] then l else Function.update l dst (l src))
  | copyFails {dst src : ℕ} {a : Malloc} : a.addr = 0 → ListStep ops l (.copy dst src a) .noMemory l

inductive ListRun (ops : VectorOps K) :
    (ℕ → List (List UInt8)) → List (VecCall K es) → List VecOut →
      (ℕ → List (List UInt8)) → Prop where
  | nil {l : ℕ → List (List UInt8)} : ListRun ops l [] [] l
  | cons {l l' l'' : ℕ → List (List UInt8)} {c : VecCall K es} {cs : List (VecCall K es)}
      {o : VecOut} {os : List VecOut} :
      ListStep ops l c o l' → ListRun ops l' cs os l'' → ListRun ops l (c :: cs) (o :: os) l''

/-- The call does not meet a product that has wrapped, or a block without room. -/
def CallFits (debug : Bool) (ops : VectorOps K) (s : ℕ → Vec) : VecCall K es → Prop
  | .insert i e _ =>
      CountFits (s i) ∧
        ((∀ x, x ∈ (s i).elems → ops.keyOf x ≠ ops.keyOf e.1) → InsertFits debug (s i))
  | .remove i _ _ => CountFits (s i)
  | .copy dst src _ => CountFits (s src) ∧ (dst ≠ src ∨ (s src).nrElems = 0)

def vecStep (debug : Bool) (ops : VectorOps K) (s : ℕ → Vec) (c : VecCall K es) :
    Option (ℕ → Vec) := (vecCall debug ops s c).map Prod.fst

section Calls
variable {s : ℕ → Vec}

def lists (s : ℕ → Vec) : ℕ → List (List UInt8) := fun i => (s i).elems

theorem lists_update (s : ℕ → Vec) (i : ℕ) (v : Vec) :
    lists (Function.update s i v) = Function.update (lists s) i v.elems := by
  funext k
  rw [lists, Function.update_apply, Function.update_apply]
  split_ifs
  · rfl
  · rfl

theorem inv_update (h : ∀ i, VecInv ops es (s i)) (i : ℕ) (hv : VecInv ops es v) :
    ∀ k, VecInv ops es (Function.update s i v k) := by
  intro k
  rw [Function.update_apply]
  split_ifs
  · exact hv
  · exact h k

theorem vecCall_ok (h : ∀ i, VecInv ops es (s i)) (hes : 1 ≤ es) (c : VecCall K es)
    (hfits : CallFits debug ops s c) :
    ∃ s' o, vecCall debug ops s c = some (s', o) ∧ (∀ i, VecInv ops es (s' i)) ∧
      ListStep ops (lists s) c o (lists s') := by
  cases c with
  | insert i e a =>
    rcases vectorInsert_ok (h i) hes hfits.1 e.2 debug a hfits.2
      with ⟨j, hj, hkey, hrun⟩ | ⟨hnew, ⟨hnull, hrun⟩ | ⟨w, hrun, hw, helems⟩⟩
    · refine ⟨s, .present (elemAt (s i).elemSize (s i).mem j), ?_, h, .present (mem_elems hj) hkey⟩
      simp only [vecCall, hrun, Option.bind_some, (h i).load_elem hj, Option.map_some,
        Function.update_eq_self]
    · refine ⟨s, .noMemory, ?_, h, .insertFails hnew hnull⟩
      simp only [vecCall, hrun, Option.bind_some, Function.update_eq_self]
    · refine ⟨Function.update s i w, .added, ?_, inv_update h i hw, ?_⟩
      · simp only [vecCall, hrun, Option.bind_some]
      · rw [lists_update, helems]
        exact .added hnew
  | remove i key want =>
    rcases vectorRemove_ok (h i) hes hfits key want
      with ⟨xs, x, ys, w, hsplit, hkey, hrun, hw, helems⟩ | ⟨hnone, hrun⟩
    · refine ⟨Function.update s i w, .removed (if want then some x else none), ?_, inv_update h i hw, ?_⟩
      · simp only [vecCall, hrun, Option.map_some]
      · rw [lists_update, helems]
        exact .removed hsplit hkey
    · refine ⟨s, .noEntry, ?_, h, .absent hnone⟩
      simp only [vecCall, hrun, Option.map_some, Function.update_eq_self]
  | copy dst src a =>
    rcases vectorCopy_ok h hes hfits.1 hfits.2 a with ⟨hnull, hrun⟩ | ⟨s', hrun, hsame, hdst, helems⟩
    · refine ⟨s, .noMemory, ?_, h, .copyFails hnull⟩
      simp only [vecCall, hrun, Option.map_some, Bool.false_eq_true, if_false]
    · have hlists : lists s' = if lists s src = [] then lists s
        else Function.update (lists s) dst (lists s src) := by
        funext i
        by_cases hi : i = dst
        · subst hi
          rw [lists, helems]
          split_ifs with hnil hnil'
          · rfl
          · exact absurd hnil hnil'
          · exact absurd ‹_› hnil
          · rw [Function.update_self]
            rfl
        · rw [lists, hsame i hi]
          split_ifs
          · rfl
          · rw [Function.update_of_ne hi]
            rfl
      refine ⟨s', .copied, ?_, fun i => ?_, ?_⟩
      · simp only [vecCall, hrun, Option.map_some, if_true]
      · by_cases hi : i = dst
        · exact hi ▸ hdst
        · rw [hsame i hi]
          exact h i
      · rw [hlists]
        exact .copied

/-- Calls that fit do not leave the blocks, answer as on lists, and leave no list with two elements
of one key. -/
theorem vecCalls_ok (h : ∀ i, VecInv ops es (s i)) (hes : 1 ≤ es) (cs : List (VecCall K es))
    (hfits : RunMeets (vecStep debug ops) (CallFits debug ops) s cs) :
    ∃ s' os, runCalls (vecCall debug ops) s cs = some (s', os) ∧ (∀ i, VecInv ops es (s' i)) ∧
      ListRun ops (lists s) cs os (lists s') := by
  induction cs generalizing s with
  | nil => exact ⟨s, [], rfl, h, .nil⟩
  | cons c cs ih =>
    obtain ⟨s₁, o, hcall, hinv, hstep⟩ := vecCall_ok h hes c hfits.1
    obtain ⟨s', os, hrun, hinv', hrest⟩ := ih hinv (hfits.2 s₁ (by rw [vecStep, hcall, Option.map_some]))
    refine ⟨s', o :: os, ?_, hinv', .cons hstep hrest⟩
    rw [runCalls, hcall, Option.bind_some, hrun, Option.map_some]

end Calls

theorem vectorInit_inv (ops : VectorOps K) (hinit : vectorInit es = some v) :
    1 ≤ es ∧ VecInv ops es v ∧ v.elems = [] := by
  rw [vectorInit] at hinit
  split_ifs at hinit with hzero hlarge
  obtain rfl := Option.some.inj hinit
  refine ⟨by omega, ⟨rfl, le_refl _, fun _ => rfl, ?_, ?_, List.nodup_nil⟩, rfl⟩
  · simp only
    omega
  · simp only
    omega

/-- Every run of calls that fit, on a family of new vectors. -/
theorem vector_run (debug : Bool) (ops : VectorOps K) (v : Vec) (cs : List (VecCall K es))
    (hinit : vectorInit es = some v)
    (hfits : RunMeets (vecStep debug ops) (CallFits debug ops) (fun _ => v) cs) :
    ∃ s os, runCalls (vecCall debug ops) (fun _ => v) cs = some (s, os) ∧
      ListRun ops (fun _ => []) cs os (lists s) ∧
      ∀ i, ((lists s i).map ops.keyOf).Nodup := by
  obtain ⟨hes, hinv, hnil⟩ := vectorInit_inv ops hinit
  obtain ⟨s, os, hrun, hinv', hlist⟩ := vecCalls_ok (fun _ => hinv) hes cs hfits
  have hstart : lists (fun _ => v) = fun _ => [] := by
    funext i
    exact hnil
  rw [hstart] at hlist
  exact ⟨s, os, hrun, hlist, fun i => (hinv' i).keys⟩

/-- Elements that are their own keys. -/
def bytesOps : VectorOps (List UInt8) where
  compareElem := fun e k => if e = k then 0 else 1
  keyOf := id
  compareElem_eq_zero := fun e k => by
    by_cases h : e = k
    · simp [h]
    · simp [h]

/-- Two insertions, a removal, an insertion and a copy for which `malloc` returns `NULL`, and a copy. -/
def sixCalls : List (VecCall (List UInt8) 1) :=
  [.insert 0 ⟨[7], rfl⟩ ⟨4096, fun _ => 0⟩, .insert 0 ⟨[9], rfl⟩ ⟨0, fun _ => 0⟩,
    .remove 0 [7] true, .insert 1 ⟨[5], rfl⟩ ⟨0, fun _ => 0⟩,
    .copy 1 0 ⟨0, fun _ => 0⟩, .copy 1 0 ⟨8192, fun _ => 0⟩]

theorem vector_run_insert : ∃ v, vectorInit 1 = some v ∧
    RunMeets (vecStep false bytesOps) (CallFits false bytesOps) (fun _ => v) sixCalls ∧
    ∃ s os, runCalls (vecCall false bytesOps) (fun _ => v) sixCalls = some (s, os) ∧
      os = [.added, .added, .removed (some [7]), .noMemory, .noMemory, .copied] ∧
        lists s 0 = [[9]] ∧ lists s 1 = [[9]] ∧
      ListRun bytesOps (fun _ => []) sixCalls os (lists s) ∧ ∀ i, ((lists s i).map bytesOps.keyOf).Nodup := by
  have hfits : RunMeets (vecStep false bytesOps) (CallFits false bytesOps)
      (fun _ => { start := 0, endAt := 0, nrElems := 0, elemSize := 1, mem := fun _ => 0 }) sixCalls := by
    refine .cons rfl ⟨by decide, fun _ => by decide⟩ ?_
    refine .cons rfl ⟨by decide, fun _ => by decide⟩ ?_
    refine .cons rfl (show CountFits _ by decide) ?_
    refine .cons rfl ⟨by decide, fun _ => by decide⟩ ?_
    refine .cons rfl ⟨by decide, .inl (by decide)⟩ ?_
    exact ⟨⟨by decide, .inl (by decide)⟩, fun _ _ => trivial⟩
  obtain ⟨s, os, hrun, hlist, hkeys⟩ := vector_run false bytesOps _ _ rfl hfits
  have hcalls : ∃ s' os', runCalls (vecCall false bytesOps)
      (fun _ => { start := 0, endAt := 0, nrElems := 0, elemSize := 1, mem := fun _ => 0 })
        sixCalls = some (s', os') ∧
      os' = [.added, .added, .removed (some [7]), .noMemory, .noMemory, .copied] ∧
        lists s' 0 = [[9]] ∧ lists s' 1 = [[9]] :=
    ⟨_, _, rfl, rfl, by decide, by decide⟩
  obtain ⟨s', os', hrun', hrest⟩ := hcalls
  obtain ⟨rfl, rfl⟩ := Prod.mk.inj (Option.some.inj (hrun.symm.trans hrun'))
  exact ⟨_, rfl, hfits, s, os, hrun, hrest.1, hrest.2.1, hrest.2.2, hlist, hkeys⟩

/-- `VEC_NR_ELEMS * elem_size` wraps to less than one element: the first element goes behind the block. -/
theorem insert_outside (ops : VectorOps K) (e : { bs : List UInt8 // bs.length = es }) (a : Malloc)
    (m : ℕ → UInt8)
    (hsmall : vecNrElems debug * es % 2 ^ 32 < es) (haddr : a.addr ≠ 0) :
    vecCall debug ops (fun _ => { start := 0, endAt := 0, nrElems := 0, elemSize := es, mem := m })
      (.insert 0 e a) = none := by
  have hprod : (0 : ℕ) * es % 2 ^ 32 = 0 := by omega
  have hsize : (0 + vecNrElems debug * es % 2 ^ 32) % 2 ^ 64 = vecNrElems debug * es % 2 ^ 32 := by omega
  have halloc : a.alloc (vecNrElems debug * es % 2 ^ 32) = some (a.addr : ℤ) := by
    rw [Malloc.alloc, if_neg]
    omega
  have hout : ¬((a.addr : ℤ) ≤ a.addr ∧ (a.addr : ℤ) + e.1.length ≤ a.addr +
      (vecNrElems debug * es % 2 ^ 32 : ℕ)) := by
    rw [e.2]
    omega
  simp only [vecCall, vectorInsert, findElem, expand, copyBlock, Vec.size, Vec.room, hprod,
    sub_self, Int.toNat_zero, hsize, halloc,
    Nat.cast_zero, add_zero, lt_irrefl, if_false, if_true, ne_eq, not_true_eq_false,
    Option.bind_some, Option.map_some, Vec.store,
    if_neg hout, Bool.false_eq_true, Option.map_none, Option.bind_none]

/-- Elements of 2^25 + 1 bytes: the first block has 128 bytes. -/
theorem insert_wraps : ∃ v, vectorInit (2 ^ 25 + 1) = some v ∧
    runCalls (vecCall false bytesOps) (fun _ => v)
      [.insert 0 ⟨List.replicate (2 ^ 25 + 1) 7, List.length_replicate⟩ ⟨4096, fun _ => 0⟩] = none := by
  refine ⟨_, rfl, ?_⟩
  rw [runCalls, insert_outside bytesOps _ _ _ (by norm_num [vecNrElems]) (by norm_num), Option.bind_none]

end Skp.Adt
