import Skp.Adt.RbtreeCompare

/-! # Sequences of calls

A call is allowed when it inserts a node that is not linked or removes one that is. `linked` is the
nodes inserted and not removed, in the order of their insertion; it says nothing about trees. After
any allowed calls the tree holds these nodes, sorted, with equal ones in that order. -/

namespace Skp.Adt
set_option autoImplicit false
open Skp.Foundations Skp.Foundations.RbTree

section Runs
variable {N K : Type*} [DecidableEq N]

inductive RbCall (N K : Type*) where
  | insert (node : N)
  | multiInsert (node : N)
  | remove (key : K)
  | removeNode (node : N)

section Calls
variable (ops : RbtreeOps N K)

def rbCall (fuel : ℕ) (s : RbRoot N) : RbCall N K → Option (RbRoot N × Option N)
  | .insert n => rbtreeInsertNodeCached ops fuel s n
  | .multiInsert n => (rbtreeMultiInsertNodeCached ops fuel s n).map fun s => (s, none)
  | .remove key => rbtreeRemoveCached ops fuel s key
  | .removeNode n => (rbtreeRemoveNodeCached fuel s n).map fun s => (s, none)

def rbCalls (fuel : ℕ) : RbRoot N → List (RbCall N K) → Option (RbRoot N)
  | s, [] => some s
  | s, call :: calls => (rbCall ops fuel s call).bind fun k => rbCalls fuel k.1 calls

/-- The linked nodes after a call, oldest first. -/
def linked (ins : List N) : RbCall N K → List N
  | .insert n => if ∃ x ∈ ins, ops.compareNode x n = 0 then ins else ins ++ [n]
  | .multiInsert n => ins ++ [n]
  | .remove key => match (equals ops key ins).head? with
    | none => ins
    | some x => ins.erase x
  | .removeNode n => ins.erase n

def allowed (ins : List N) : RbCall N K → Prop
  | .insert n => n ∉ ins
  | .multiInsert n => n ∉ ins
  | .remove _ => True
  | .removeNode n => n ∈ ins

def linkedAfter (ins : List N) (calls : List (RbCall N K)) : List N := calls.foldl (linked ops) ins

def allAllowed : List N → List (RbCall N K) → Prop
  | _, [] => True
  | ins, call :: calls => allowed ins call ∧ allAllowed (linked ops ins call) calls

end Calls

variable {ops : RbtreeOps N K} {s : RbRoot N} {ins xs ys : List N} {t : RbTree N} {x : N} {fuel : ℕ}

/-- The tree has the linked nodes, sorted, and equal ones as they were inserted. -/
structure Holding (ops : RbtreeOps N K) (xs ins : List N) : Prop where
  sorted : Sorted ops xs
  perm : xs.Perm ins
  stable : ∀ a, xs.filter (fun x => decide (ops.compareNode x a = 0)) = ins.filter fun x =>
    decide (ops.compareNode x a = 0)

structure RbInv (ops : RbtreeOps N K) (s : RbRoot N) (ins : List N) (t : RbTree N) : Prop where
  focus : Focus s [] t
  balanced : ∃ m, t.Balanced .black m
  holding : Holding ops t.toList ins
  leftmost : s.leftmost = t.toList.head?

/-! ## The nodes equal to a key -/

omit [DecidableEq N] in
theorem Holding.equals_eq (hops : CompareOk ops) (h : Holding ops xs ins) (k : K) :
    equals ops k xs = equals ops k ins := by
  by_cases hex : ∃ x ∈ ins, ops.compareKey x k = 0
  · -- the nodes equal to the key are those equal to one of them
    obtain ⟨a, ha, hka⟩ := hex
    have hclass : ∀ zs : List N, equals ops k zs = zs.filter fun x => decide (ops.compareNode x a = 0) := by
      intro zs
      apply List.filter_congr
      intro x _
      simp only [decide_eq_decide]
      exact hops.key_eq a x k hka
    rw [hclass, hclass]
    exact h.stable a
  · have hnil : ∀ zs : List N, (∀ x, x ∈ zs → x ∈ ins) → equals ops k zs = [] := by
      intro zs hzs
      apply List.eq_nil_iff_forall_not_mem.mpr
      intro x hx
      exact hex ⟨x, hzs x (mem_equals.mp hx).1, (mem_equals.mp hx).2⟩
    rw [hnil xs fun x hx => h.perm.mem_iff.mp hx, hnil ins fun _ hx => hx]

/-! ## One call -/

omit [DecidableEq N] in
theorem Holding.insert (hops : CompareOk ops) {multi : Bool} (h : Holding ops (xs ++ ys) ins)
    (hbetween : Between ops x multi xs ys) : Holding ops (xs ++ x :: ys) (ins ++ [x]) where
  sorted := by
    obtain ⟨hxs, hys, hcross⟩ := List.pairwise_append.mp h.sorted
    refine List.pairwise_append.mpr ⟨hxs, List.pairwise_cons.mpr ⟨fun y hy => ?_, hys⟩, fun a ha b hb => ?_⟩
    · exact ((hops.node_swap y x).mp (hbetween.after y hy)).le
    · cases List.mem_cons.mp hb with
      | inl heq => rw [heq]; exact hbetween.before a ha
      | inr hb => exact hcross a ha b hb
  perm := by
    have hmid : (xs ++ x :: ys).Perm (x :: (xs ++ ys)) := List.perm_middle
    exact hmid.trans ((h.perm.cons x).trans (List.perm_append_singleton x ins).symm)
  stable a := by
    have hold := h.stable a
    rw [List.filter_append] at hold
    rw [List.filter_append, List.filter_append, ← hold]
    by_cases hx : ops.compareNode x a = 0
    · -- nothing after the new node is equal to it
      have hnil : ys.filter (fun y => decide (ops.compareNode y a = 0)) = [] := by
        rw [List.filter_eq_nil_iff]
        intro y hy hya
        have hya' : ops.compareNode y a = 0 := by simpa using hya
        have hyx := hops.node_trans y a x hya'.le (hops.node_symm hx).le
        have hgt := hbetween.after y hy
        omega
      rw [List.filter_cons_of_pos (by simpa using hx), hnil, List.filter_cons_of_pos (by simpa using hx)]
      simp
    · rw [List.filter_cons_of_neg (by simpa using hx), List.filter_cons_of_neg (by simpa using hx)]
      simp

theorem Holding.erase (h : Holding ops (xs ++ x :: ys) ins) (hnodup : (xs ++ x :: ys).Nodup) :
    Holding ops (xs ++ ys) (ins.erase x) := by
  have herase : (xs ++ x :: ys).erase x = xs ++ ys := by
    have hnot : x ∉ xs := fun hx => (List.nodup_append.mp hnodup).2.2 x hx x List.mem_cons_self rfl
    rw [List.erase_append_right _ hnot, List.erase_cons_head]
  have hins : ins.Nodup := h.perm.nodup_iff.mp hnodup
  refine ⟨?_, ?_, fun a => ?_⟩
  · rw [← herase]
    exact h.sorted.sublist List.erase_sublist
  · rw [← herase]
    exact h.perm.erase x
  · rw [← herase, hnodup.erase_eq_filter, hins.erase_eq_filter, List.filter_comm, h.stable a,
      List.filter_comm]

theorem rbtLinkNode_leftmost (s : RbRoot N) (x : N) (link : Option (N × Side)) :
    (rbtLinkNode s x link).leftmost = s.leftmost := by
  cases link <;> rfl

omit [DecidableEq N] in
theorem RbInv.length (h : RbInv ops s ins t) : t.toList.length = ins.length := h.holding.perm.length_eq

/-- The node linked at the end of a descent and the tree balanced; it is the leftmost one if the
descent says so. -/
theorem rbInsert_ok (hops : CompareOk ops) (h : RbInv ops s ins t) (hx : x ∉ ins)
    {gs : List (Frame N)} {first multi : Bool}
    (hfocus : Focus s gs nil) (hplug : plug gs nil = t)
    (hbetween : Between ops x multi (before gs) (after gs))
    (hfirst : first = true ↔ before gs = []) (hfuel : ins.length < fuel) :
    ∃ s' t', rbInsert fuel (rbtLinkNode s x (linkOf gs)) x first = some s' ∧ RbInv ops s' (ins ++ [x]) t' ∧
      (first = true ↔ s'.leftmost = some x) := by
  have hlist : t.toList = before gs ++ after gs := by
    have heq := congrArg toList hplug
    rw [toList_plug] at heq
    simpa [plug, toList] using heq.symm
  have hgs : x ∉ before gs ++ after gs := fun hmem => hx (h.holding.perm.mem_iff.mp (hlist ▸ hmem))
  have hframes : x ∉ frameIds gs := by
    intro hmem
    rw [List.mem_append] at hgs
    exact hgs (mem_frameIds.mp hmem)
  have hlink := rbtLinkNode_focus hfocus hframes
  have hlen : gs.length < fuel := by
    have hle := length_le_ids gs
    have hsize := h.length
    rw [hlist, List.length_append] at hsize
    omega
  obtain ⟨m, hbal⟩ := h.balanced
  have hplugbal : (plug gs nil).Balanced .black m := by
    rw [hplug]
    exact hbal
  -- the hole was empty, so a red node without children is all but allowed there
  obtain ⟨c, n, hfits, hnil⟩ := (Fits.root m).unplug hplugbal
  rw [List.append_nil] at hfits
  cases hnil with
  | nil =>
    have hup : ((rbtLinkNode s x (linkOf gs)).heap x).parent = above gs := by rw [hlink.shape.1]
    have hlink' : Focus (if first then { rbtLinkNode s x (linkOf gs) with leftmost := some x }
        else rbtLinkNode s x (linkOf gs)) gs (node .red nil x nil) := by
      split
      · exact hlink.congr rfl fun _ _ => rfl
      · exact hlink
    obtain ⟨s', t', hloop, hfocus', hlist', hbal', hleft'⟩ :=
      rbInsertLoop_ok fuel gs _ _ x 0 hlen hlink' (.red .nil .nil) hfits rfl
    have hseq : t'.toList = before gs ++ x :: after gs := by
      rw [hlist', toList_plug]
      simp [toList]
    have hleftmost : s'.leftmost = t'.toList.head? := by
      rw [hleft', hseq]
      have hold := h.leftmost
      rw [hlist] at hold
      cases hb : before gs with
      | nil =>
        rw [if_pos (hfirst.mpr hb)]
        rfl
      | cons y us =>
        have hfalse : first ≠ true := fun hf => absurd (hfirst.mp hf) (by simp [hb])
        rw [if_neg hfalse, rbtLinkNode_leftmost, hold, hb]
        rfl
    refine ⟨s', t', ?_, ⟨hfocus', hbal', ?_, hleftmost⟩, ?_⟩
    · rw [rbInsert, hup]
      exact hloop
    · rw [hseq]
      have hold := h.holding
      rw [hlist] at hold
      exact hold.insert hops hbetween
    · rw [hfirst, hleftmost, hseq]
      cases hb : before gs with
      | nil => simp
      | cons y us =>
        have hne : y ≠ x := fun heq => hgs (by simp [hb, heq])
        simp [hne]

theorem rbtreeInsert_ok (hops : CompareOk ops) (h : RbInv ops s ins t) (hx : x ∉ ins) (multi : Bool)
    (hfuel : t.toList.length < fuel) :
    (∃ y, rbtreeInsert ops fuel s x multi true = some (s, some y) ∧ multi = false ∧ y ∈ ins ∧
      ops.compareNode y x = 0) ∨
    (∃ s' t', rbtreeInsert ops fuel s x multi true = some (s', none) ∧ RbInv ops s' (ins ++ [x]) t' ∧
      (multi = false → ∀ y, y ∈ ins → ops.compareNode y x ≠ 0)) := by
  have hnode : s.node = t.root := h.focus.hole
  rcases insertPoint_ok hops t fuel [] true h.focus h.holding.sorted hfuel
    (between_root ops x multi) (by simp [before]) with
    ⟨y, hpoint, hm, hy, hz⟩ | ⟨gs, first, hpoint, hfocus, hplug, hbetween, hfirst⟩
  · refine Or.inl ⟨y, ?_, hm, h.holding.perm.mem_iff.mp hy, hz⟩
    rw [rbtreeInsert, hnode]
    exact congrArg (Option.bind · _) hpoint
  · obtain ⟨s', t', hinsert, hinv, -⟩ :=
      rbInsert_ok hops h hx hfocus hplug hbetween hfirst (h.length ▸ hfuel)
    refine Or.inr ⟨s', t', ?_, hinv, fun hm y hy => ?_⟩
    · rw [rbtreeInsert, hnode]
      refine (congrArg (Option.bind · _) hpoint).trans ?_
      simp only [Option.bind_some, if_true]
      rw [hinsert]
      rfl
    · have hlist : t.toList = before gs ++ after gs := by
        have heq := congrArg toList hplug
        rw [toList_plug] at heq
        simpa [plug, toList] using heq.symm
      have hy' : y ∈ before gs ++ after gs := hlist ▸ h.holding.perm.mem_iff.mpr hy
      cases List.mem_append.mp hy' with
      | inl hb => exact hbetween.unique hm y hb
      | inr ha => exact (hbetween.after y ha).ne'

theorem rbtreeErase_ok (h : RbInv ops s ins t) (hx : x ∈ ins) (hfuel : ins.length < fuel) :
    ∃ s' t', rbtEraseCached fuel s x = some s' ∧ RbInv ops (rbtClearNode s' x) (ins.erase x) t' := by
  obtain ⟨us, vs, hlist⟩ := List.append_of_mem (h.holding.perm.mem_iff.mpr hx)
  obtain ⟨m, hbal⟩ := h.balanced
  have hnodup := h.focus.toList_nodup
  have hlen : t.toList.length ≤ fuel := by
    rw [h.length]
    omega
  obtain ⟨s', t', herase, hfocus, hlist', hbal', hleft⟩ :=
    rbtEraseCached_ok h.focus hbal hlist h.leftmost hlen
  have hhold := h.holding
  rw [hlist] at hhold hnodup
  have hnot : x ∉ t'.toList := by
    rw [hlist']
    rw [List.nodup_append, List.nodup_cons] at hnodup
    intro hmem
    cases List.mem_append.mp hmem with
    | inl hu => exact hnodup.2.2 x hu x List.mem_cons_self rfl
    | inr hv => exact hnodup.2.1.1 hv
  refine ⟨s', t', herase, ?_, hbal', ?_, ?_⟩
  · refine hfocus.congr rfl fun y hy => put_heap_ne s' _ ?_
    exact fun heq => hnot (heq ▸ hy)
  · rw [hlist']
    exact hhold.erase hnodup
  · rw [hlist']
    exact hleft

theorem rbCall_ok (hops : CompareOk ops) (h : RbInv ops s ins t) {call : RbCall N K}
    (hallowed : allowed ins call)
    (hfuel : ins.length < fuel) : ∃ s' out t', rbCall ops fuel s call = some (s', out) ∧
      RbInv ops s' (linked ops ins call) t' := by
  have hlen : t.toList.length < fuel := by
    rw [h.length]
    exact hfuel
  cases call with
  | insert n =>
    rcases rbtreeInsert_ok hops h hallowed false hlen
      with ⟨y, hcall, -, hy, hz⟩ | ⟨s', t', hcall, hinv, hnone⟩
    · refine ⟨s, some y, t, hcall, ?_⟩
      rw [linked, if_pos ⟨y, hy, hz⟩]
      exact h
    · refine ⟨s', none, t', hcall, ?_⟩
      have hnot : ¬ ∃ x ∈ ins, ops.compareNode x n = 0 :=
        fun hex => hnone rfl hex.choose hex.choose_spec.1 hex.choose_spec.2
      rw [linked, if_neg hnot]
      exact hinv
  | multiInsert n =>
    rcases rbtreeInsert_ok hops h hallowed true hlen with ⟨y, -, hm, -⟩ | ⟨s', t', hcall, hinv, -⟩
    · cases hm
    · refine ⟨s', none, t', ?_, hinv⟩
      rw [rbCall, rbtreeMultiInsertNodeCached, hcall]
      rfl
  | remove k =>
    have hfirst := (rbtreeLookup_ends (k := k) hops h.focus h.holding.sorted hlen).1
    rw [h.holding.equals_eq hops k] at hfirst
    rw [rbCall, rbtreeRemoveCached, hfirst, linked]
    cases hhead : (equals ops k ins).head? with
    | none => exact ⟨s, none, t, rfl, h⟩
    | some y =>
      obtain ⟨s', t', herase, hinv⟩ := rbtreeErase_ok h (mem_equals.mp (List.mem_of_mem_head? hhead)).1 hfuel
      refine ⟨rbtClearNode s' y, some y, t', ?_, hinv⟩
      simp [herase]
  | removeNode n =>
    obtain ⟨s', t', herase, hinv⟩ := rbtreeErase_ok h hallowed hfuel
    refine ⟨rbtClearNode s' n, none, t', ?_, hinv⟩
    rw [rbCall, rbtreeRemoveNodeCached, herase]
    rfl

/-! ## All calls -/

theorem linked_length (ops : RbtreeOps N K) (ins : List N) (call : RbCall N K) :
    (linked ops ins call).length ≤ ins.length + 1 := by
  cases call with
  | insert n =>
    rw [linked]
    split <;> simp
  | multiInsert n => simp [linked]
  | remove k =>
    rw [linked]
    split
    · omega
    · exact List.length_erase_le.trans (Nat.le_succ _)
  | removeNode n => exact List.length_erase_le.trans (Nat.le_succ _)

omit [DecidableEq N] in
theorem rbInv_init (ops : RbtreeOps N K) (heap : N → RbtNode N) : RbInv ops (rbInit heap) [] nil where
  focus := ⟨rfl, fun pc hpc => by rw [List.mem_singleton.mp hpc]; trivial, List.nodup_nil⟩
  balanced := ⟨0, .nil⟩
  holding := ⟨List.Pairwise.nil, List.Perm.refl _, fun _ => rfl⟩
  leftmost := rfl

theorem rbCalls_inv (hops : CompareOk ops) (fuel : ℕ) (calls : List (RbCall N K)) :
    ∀ (s : RbRoot N) (ins : List N) (t : RbTree N),
    RbInv ops s ins t → allAllowed ops ins calls → ins.length + calls.length < fuel →
      ∃ s' t', rbCalls ops fuel s calls = some s' ∧ RbInv ops s' (linkedAfter ops ins calls) t' := by
  induction calls with
  | nil => exact fun s ins t h _ _ => ⟨s, t, rfl, h⟩
  | cons call calls ih =>
    intro s ins t h hall hfuel
    rw [List.length_cons] at hfuel
    obtain ⟨s', out, t', hcall, hinv⟩ := rbCall_ok hops h hall.1 (by omega : ins.length < fuel)
    have hlen := linked_length ops ins call
    obtain ⟨s'', t'', hcalls, hinv'⟩ := ih s' _ t' hinv hall.2 (by omega)
    refine ⟨s'', t'', ?_, hinv'⟩
    rw [rbCalls, hcall]
    exact hcalls

theorem linkedAfter_length (ops : RbtreeOps N K) (calls : List (RbCall N K)) (ins : List N) :
    (linkedAfter ops ins calls).length ≤ ins.length + calls.length := by
  induction calls generalizing ins with
  | nil => exact le_rfl
  | cons call calls ih =>
    have hone := linked_length ops ins call
    have hrest := ih (linked ops ins call)
    rw [linkedAfter, List.foldl_cons, List.length_cons]
    rw [linkedAfter] at hrest
    omega

/-- What holds of a tree with the linked nodes `ins`, oldest first. -/
structure RbtreeOk (ops : RbtreeOps N K) (fuel : ℕ) (s : RbRoot N) (ins : List N) : Prop where
  /-- The memory is a tree, its parent links being those of the child links, by the red-black rules, and its
  sequence is the linked nodes, sorted, with equal ones in the order of insertion. -/
  tree : ∃ t n, s.node = t.root ∧ Shape s.heap none t ∧ t.Balanced .black n ∧ t.toList.Nodup ∧
    Sorted ops t.toList ∧
    t.toList.Perm ins ∧ ∀ a, t.toList.filter (fun x => decide (ops.compareNode x a = 0)) =
      ins.filter fun x => decide (ops.compareNode x a = 0)
  leftmost : rbtFirst fuel s = some s.leftmost
  present : ∀ x, x ∉ ins → (∃ y ∈ ins, ops.compareNode y x = 0) →
    ∃ y ∈ ins, ops.compareNode y x = 0 ∧ rbtreeInsertNodeCached ops fuel s x = some (s, some y)
  absent : ∀ x, x ∉ ins → (∀ y ∈ ins, ops.compareNode y x ≠ 0) →
    ∃ s', rbtreeInsertNodeCached ops fuel s x = some (s', none)
  remove : ∀ k, ∃ s', rbtreeRemoveCached ops fuel s k = some (s', (equals ops k ins).head?)
  first : ∀ k, rbtreeLookupFirst ops fuel s k = some (equals ops k ins).head?
  last : ∀ k, rbtreeLookupLast ops fuel s k = some (equals ops k ins).getLast?
  next : ∀ k es x es', equals ops k ins = es ++ x :: es' → rbtreeLookupNext ops fuel s x = some es'.head?
  prev : ∀ k es x es', equals ops k ins = es ++ x :: es' → rbtreeLookupPrev ops fuel s x = some es.getLast?

theorem RbInv.ok (hops : CompareOk ops) (h : RbInv ops s ins t) (hfuel : ins.length < fuel) :
    RbtreeOk ops fuel s ins := by
  have hlen : t.toList.length < fuel := by
    rw [h.length]
    exact hfuel
  have hequals := h.holding.equals_eq hops
  have hends := fun k => rbtreeLookup_ends (k := k) hops h.focus h.holding.sorted hlen
  have hsteps : ∀ k es x es', equals ops k ins = es ++ x :: es' →
      rbtreeLookupNext ops fuel s x = some es'.head? ∧ rbtreeLookupPrev ops fuel s x = some es.getLast? := by
    intro k es x es' hes
    exact rbtreeLookup_steps hops h.focus h.holding.sorted hlen ((hequals k).trans hes)
  constructor
  · obtain ⟨n, hbal⟩ := h.balanced
    exact ⟨t, n, h.focus.hole, h.focus.shape, hbal, h.focus.toList_nodup, h.holding.sorted,
      h.holding.perm, h.holding.stable⟩
  · rw [(rbtEnd_ok h.focus hlen.le).1, h.leftmost]
  · intro x hx hex
    rcases rbtreeInsert_ok hops h hx false hlen with ⟨y, hcall, -, hy, hz⟩ | ⟨s', t', -, -, hnone⟩
    · exact ⟨y, hy, hz, hcall⟩
    · exact absurd hex.choose_spec.2 (hnone rfl hex.choose hex.choose_spec.1)
  · intro x hx hnone
    rcases rbtreeInsert_ok hops h hx false hlen with ⟨y, -, -, hy, hz⟩ | ⟨s', t', hcall, -, -⟩
    · exact absurd hz (hnone y hy)
    · exact ⟨s', hcall⟩
  · intro k
    rw [rbtreeRemoveCached, (hends k).1, hequals k]
    cases hhead : (equals ops k ins).head? with
    | none => exact ⟨s, rfl⟩
    | some y =>
      obtain ⟨s', t', herase, -⟩ := rbtreeErase_ok h (mem_equals.mp (List.mem_of_mem_head? hhead)).1 hfuel
      exact ⟨rbtClearNode s' y, by simp [herase]⟩
  · intro k
    rw [(hends k).1, hequals k]
  · intro k
    rw [(hends k).2, hequals k]
  · exact fun k es x es' hes => (hsteps k es x es' hes).1
  · exact fun k es x es' hes => (hsteps k es x es' hes).2

/-- After any allowed calls: all of them return, and the tree is what it should be. -/
theorem rbtree_ok (ops : RbtreeOps N K) (hops : CompareOk ops) (heap : N → RbtNode N)
    (calls : List (RbCall N K))
    (hallowed : allAllowed ops [] calls) (fuel : ℕ) (hfuel : calls.length < fuel) :
    ∃ s, rbCalls ops fuel (rbInit heap) calls = some s ∧ RbtreeOk ops fuel s (linkedAfter ops [] calls) := by
  have hlen := linkedAfter_length ops calls []
  rw [List.length_nil, Nat.zero_add] at hlen
  obtain ⟨s, t, hcalls, hinv⟩ :=
    rbCalls_inv hops fuel calls (rbInit heap) [] nil (rbInv_init ops heap) hallowed
    (by rw [List.length_nil]; omega)
  exact ⟨s, hcalls, hinv.ok hops (by omega)⟩

/-- Nodes with the same half are equal. -/
def halfOps : RbtreeOps ℕ ℕ where
  compareKey a k := (a / 2 : ℤ) - k
  compareNode a b := (a / 2 : ℤ) - (b / 2 : ℤ)

def halfCalls : List (RbCall ℕ ℕ) :=
  [.multiInsert 5, .multiInsert 8, .insert 2, .multiInsert 4, .insert 9, .multiInsert 3, .remove 2,
    .removeNode 8, .insert 7]

theorem rbtree_ok_halfCalls : linkedAfter halfOps [] halfCalls = [2, 4, 3, 7] ∧
    ∃ s, rbCalls halfOps 10 (rbInit fun _ => ⟨none, .red, none, none⟩) halfCalls = some s ∧
      RbtreeOk halfOps 10 s (linkedAfter halfOps [] halfCalls) := by
  have hops : CompareOk halfOps := by
    constructor <;> simp only [halfOps] <;> omega
  have hallowed : allAllowed halfOps [] halfCalls := by
    simp [halfCalls, allAllowed, allowed, linked, equals, halfOps]
  exact ⟨by decide, rbtree_ok halfOps hops _ halfCalls hallowed 10 (by decide)⟩

end Runs

/-! ## How far the descents go

A descent of `rbtree_lookup`, `__rbtree_insert_node`, `rbt_first` or `rbt_last` visits one node of
each level at most, and a tree with `n` nodes has at most `2 * log2 (n + 1)` levels. Each round
visits a node, but for the last one of a descent that ends at a null link. -/

section Depth
variable {N K : Type*} {ops : RbtreeOps N K} {s : RbRoot N} {t : RbTree N} {k : K} {fuel rounds : ℕ}
    {p : Option N}

/-! ## A descent needs a round for each level -/

theorem lookupLoop_returns (ht : Shape s.heap p t) (hr : t.height ≤ rounds) :
    ∃ res, lookupLoop ops (rounds + 1) s k t.root = some res ∧
      (res ≠ none → lookupLoop ops rounds s k t.root = some res) := by
  induction t generalizing p rounds with
  | nil => exact ⟨none, rfl, fun hne => absurd rfl hne⟩
  | node c l x r ihl ihr =>
    rw [height] at hr
    cases rounds with
    | zero => omega
    | succ rounds =>
      obtain ⟨hx, hl, hright⟩ := ht
      simp only [lookupLoop, root, hx]
      split
      · exact ihr hright (by omega)
      · split
        · exact ⟨some x, rfl, fun _ => rfl⟩
        · exact ihl hl (by omega)

theorem insertPoint_returns {x : N} {multi leftmost : Bool} {link : Option (N × Side)}
    (ht : Shape s.heap p t) (hr : t.height ≤ rounds) :
    ∃ point, insertPoint ops (rounds + 1) s x multi link leftmost t.root = some point ∧
      ∀ y, point = .present y → insertPoint ops rounds s x multi link leftmost t.root = some point := by
  induction t generalizing p rounds link leftmost with
  | nil => exact ⟨_, rfl, fun y hy => by cases hy⟩
  | node c l y r ihl ihr =>
    rw [height] at hr
    cases rounds with
    | zero => omega
    | succ rounds =>
      obtain ⟨hy, hl, hright⟩ := ht
      simp only [insertPoint, root, hy]
      split
      · exact ihl hl (by omega)
      · split
        · exact ⟨_, rfl, fun _ _ => rfl⟩
        · exact ihr hright (by omega)

theorem rbtDescend_returns {d : Side} {x : N} (ht : Shape s.heap p t) (hx : t.root = some x)
    (hr : t.height ≤ rounds) :
    ∃ y, rbtDescend rounds s d x = some y := by
  induction t generalizing p x rounds with
  | nil => exact nomatch hx
  | node c l y r ihl ihr =>
    obtain rfl := Option.some.inj hx
    rw [height] at hr
    cases rounds with
    | zero => omega
    | succ rounds =>
      obtain ⟨hy, hl, hright⟩ := ht
      cases d with
      | left =>
        simp only [rbtDescend, hy, RbtNode.child]
        cases hroot : l.root with
        | none => exact ⟨_, rfl⟩
        | some m => exact ihl hl hroot (by omega)
      | right =>
        simp only [rbtDescend, hy, RbtNode.child]
        cases hroot : r.root with
        | none => exact ⟨_, rfl⟩
        | some m => exact ihr hright hroot (by omega)

theorem lookupLoop_mono {link res : Option N} (h : lookupLoop ops rounds s k link = some res)
    (hle : rounds ≤ fuel) :
    lookupLoop ops fuel s k link = some res := by
  induction rounds generalizing link fuel with
  | zero => exact nomatch h
  | succ rounds ih =>
    cases fuel with
    | zero => exact absurd hle (Nat.not_succ_le_zero _)
    | succ fuel =>
      cases link with
      | none => exact h
      | some next =>
        rw [lookupLoop] at h ⊢
        split
        · rw [if_pos ‹_›] at h
          exact ih h (Nat.le_of_succ_le_succ hle)
        · rw [if_neg ‹_›] at h
          split
          · rw [if_pos ‹_›] at h
            exact h
          · rw [if_neg ‹_›] at h
            exact ih h (Nat.le_of_succ_le_succ hle)

/-! ## In every tree -/

variable [DecidableEq N]

/-- Every descent visits at most `nodes` nodes in a tree with the linked nodes `ins`. -/
structure ShortDescents (ops : RbtreeOps N K) (nodes : ℕ) (s : RbRoot N) (ins : List N) : Prop where
  lookup : ∀ k, ∃ res, rbtreeLookup ops (nodes + 1) s k = some res ∧
    (res ≠ none → rbtreeLookup ops nodes s k = some res) ∧
    (∀ x, res = some x → x ∈ ins ∧ ops.compareKey x k = 0) ∧ (res = none → ∀ x ∈ ins, ops.compareKey x k ≠ 0)
  insert : ∀ x multi, ∃ point, insertPoint ops (nodes + 1) s x multi none true s.node = some point ∧
    ∀ y, point = .present y → insertPoint ops nodes s x multi none true s.node = some point
  ends : ∀ d, ∃ x, rbtEnd nodes s d = some x

/-- After any allowed calls, a descent ends within `2 * log2 (n + 1)` nodes, `n` being the number of
linked nodes, and a lookup has found a node equal to the key if there is one. -/
theorem rbtree_descents_short (ops : RbtreeOps N K) (hops : CompareOk ops) (heap : N → RbtNode N)
    (calls : List (RbCall N K))
    (hallowed : allAllowed ops [] calls) (fuel : ℕ) (hfuel : calls.length < fuel) :
    ∃ s, rbCalls ops fuel (rbInit heap) calls = some s ∧
      ShortDescents ops (2 * Nat.log 2 ((linkedAfter ops [] calls).length + 1)) s
        (linkedAfter ops [] calls) := by
  have hlt : ([] : List N).length + calls.length < fuel := by
    rw [List.length_nil]
    omega
  obtain ⟨s, t, hcalls, hinv⟩ :=
    rbCalls_inv hops fuel calls (rbInit heap) [] nil (rbInv_init ops heap) hallowed hlt
  obtain ⟨n, hbal⟩ := hinv.balanced
  have hheight := hbal.height_le_log
  rw [hinv.length] at hheight
  have hnode : s.node = t.root := hinv.focus.hole
  have hshape : Shape s.heap none t := hinv.focus.shape
  have hmem : ∀ x, x ∈ t.toList ↔ x ∈ linkedAfter ops [] calls := fun x => hinv.holding.perm.mem_iff
  refine ⟨s, hcalls, fun k => ?_, fun x multi => ?_, fun d => ?_⟩
  · have hdescent : ∃ res, lookupLoop ops _ s k t.root = some res ∧
      (res ≠ none → lookupLoop ops _ s k t.root = some res) :=
      lookupLoop_returns hshape hheight
    obtain ⟨res, hres, hfound⟩ := hdescent
    -- the value is that of a lookup with rounds for all nodes
    obtain ⟨res', hres', hsome, hnone⟩ := lookupLoop_ok (k := k) hops t (max (t.toList.length + 1)
      (2 * Nat.log 2 ((linkedAfter ops [] calls).length + 1) + 1)) none hshape hinv.holding.sorted (by omega)
    obtain rfl : res = res' := by
      have hmono := lookupLoop_mono hres (le_max_right (t.toList.length + 1) _)
      exact Option.some.inj (hmono.symm.trans hres')
    rw [rbtreeLookup, rbtreeLookup, hnode]
    exact ⟨res, hres, hfound, fun x hx => ⟨(hmem x).mp (hsome x hx).1, (hsome x hx).2⟩,
      fun hn x hx => hnone hn x ((hmem x).mpr hx)⟩
  · rw [hnode]
    exact insertPoint_returns hshape hheight
  · rw [rbtEnd, hnode]
    cases hroot : t.root with
    | none => exact ⟨none, rfl⟩
    | some x =>
      obtain ⟨y, hy⟩ := rbtDescend_returns (d := d) hshape hroot hheight
      exact ⟨some y, congrArg (Option.map some) hy⟩

theorem rbtree_descents_short_halfCalls : linkedAfter halfOps [] halfCalls = [2, 4, 3, 7] ∧
    ∃ s, rbCalls halfOps 10 (rbInit fun _ => ⟨none, .red, none, none⟩) halfCalls = some s ∧
      ShortDescents halfOps (2 * Nat.log 2 ((linkedAfter halfOps [] halfCalls).length + 1)) s
        (linkedAfter halfOps [] halfCalls) := by
  have hops : CompareOk halfOps := by
    constructor <;> simp only [halfOps] <;> omega
  have hallowed : allAllowed halfOps [] halfCalls := by
    simp [halfCalls, allAllowed, allowed, linked, equals, halfOps]
  exact ⟨by decide, rbtree_descents_short halfOps hops _ halfCalls hallowed 10 (by decide)⟩

end Depth

end Skp.Adt
