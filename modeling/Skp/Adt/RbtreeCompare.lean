import Skp.Adt.RbtreeErase

/-! # The tree with its compare callbacks

The callbacks agree when the one on nodes is a total preorder and the one on keys says where a key
cuts it. The sequence of a sorted tree is then in three parts around a key: what is less, what is
equal, what is greater. -/
namespace Skp.Adt
set_option autoImplicit false
open Skp.Foundations Skp.Foundations.RbTree

variable {N K : Type*}

structure CompareOk (ops : RbtreeOps N K) : Prop where
  node_swap : ∀ a b, 0 < ops.compareNode a b ↔ ops.compareNode b a < 0
  node_trans : ∀ a b c, ops.compareNode a b ≤ 0 → ops.compareNode b c ≤ 0 → ops.compareNode a c ≤ 0
  key_le : ∀ a b k, ops.compareNode a b ≤ 0 → ops.compareKey b k ≤ 0 → ops.compareKey a k ≤ 0
  key_ge : ∀ a b k, ops.compareNode a b ≤ 0 → 0 ≤ ops.compareKey a k → 0 ≤ ops.compareKey b k
  key_eq : ∀ a b k, ops.compareKey a k = 0 → (ops.compareKey b k = 0 ↔ ops.compareNode b a = 0)

def Sorted (ops : RbtreeOps N K) (xs : List N) : Prop := xs.Pairwise fun a b => ops.compareNode a b ≤ 0

section Compare
variable {ops : RbtreeOps N K} (hops : CompareOk ops) {a b c : N}
include hops

theorem CompareOk.node_ge (h : 0 ≤ ops.compareNode a b) : ops.compareNode b a ≤ 0 := by
  by_contra hpos
  have hswap := (hops.node_swap b a).mp (not_le.mp hpos)
  omega

theorem CompareOk.node_symm (h : ops.compareNode a b = 0) : ops.compareNode b a = 0 := by
  have hab := hops.node_swap a b
  have hba := hops.node_swap b a
  omega

theorem CompareOk.node_refl (a : N) : ops.compareNode a a = 0 := by
  have hswap := hops.node_swap a a
  omega

theorem CompareOk.same_class (hba : ops.compareNode b a = 0) :
    ops.compareNode c a = 0 ↔ ops.compareNode c b = 0 := by
  have hab := hops.node_symm hba
  constructor
  · intro hca
    have hle := hops.node_trans c a b hca.le hab.le
    have hge := hops.node_trans b a c hba.le (hops.node_symm hca).le
    have hswap := hops.node_swap b c
    omega
  · intro hcb
    have hle := hops.node_trans c b a hcb.le hba.le
    have hge := hops.node_trans a b c hab.le (hops.node_symm hcb).le
    have hswap := hops.node_swap a c
    omega

theorem CompareOk.lt_of_le_of_lt (hab : ops.compareNode a b ≤ 0) (hbc : ops.compareNode b c < 0) :
    ops.compareNode a c < 0 := by
  by_contra hge
  have hcb := hops.node_trans c a b (hops.node_ge (not_lt.mp hge)) hab
  have hswap := (hops.node_swap c b).mpr hbc
  omega

theorem CompareOk.gt_of_le_of_gt (hab : ops.compareNode a b ≤ 0) (hac : 0 < ops.compareNode a c) :
    0 < ops.compareNode b c := by
  rw [hops.node_swap] at hac ⊢
  by_contra hge
  have hbc := hops.node_ge (not_lt.mp hge)
  have hle := hops.node_trans a b c hab hbc
  have hswap := (hops.node_swap a c).mpr hac
  omega

end Compare

/-! ## Looking a key up -/

variable {ops : RbtreeOps N K} {s : RbRoot N} {t : RbTree N} {k : K} {fuel : ℕ}

theorem Sorted.node {c : Color} {l r : RbTree N} {x : N} (h : Sorted ops (node c l x r).toList) :
    Sorted ops l.toList ∧ Sorted ops r.toList ∧ (∀ y, y ∈ l.toList → ops.compareNode y x ≤ 0) ∧
      ∀ y, y ∈ r.toList → ops.compareNode x y ≤ 0 := by
  obtain ⟨hl, hr, hlr⟩ := List.pairwise_append.mp h
  obtain ⟨hx, hr⟩ := List.pairwise_cons.mp hr
  exact ⟨hl, hr, fun y hy => hlr y hy x List.mem_cons_self, hx⟩

variable [DecidableEq N]

theorem lookupLoop_ok (hops : CompareOk ops) (t : RbTree N) : ∀ (fuel : ℕ) (p : Option N), Shape s.heap p t →
    Sorted ops t.toList → t.toList.length < fuel →
    ∃ res, lookupLoop ops fuel s k t.root = some res ∧
      (∀ x, res = some x → x ∈ t.toList ∧ ops.compareKey x k = 0) ∧
      (res = none → ∀ x, x ∈ t.toList → ops.compareKey x k ≠ 0) := by
  induction t with
  | nil =>
    intro fuel p _ _ hfuel
    cases fuel with
    | zero => exact absurd hfuel (Nat.not_lt_zero _)
    | succ fuel =>
      refine ⟨none, rfl, fun x hx => ?_, fun _ x hx => ?_⟩
      · cases hx
      · cases hx
  | node c l x r ihl ihr =>
    intro fuel p hshape hsorted hfuel
    obtain ⟨hrec, hlshape, hrshape⟩ := hshape
    obtain ⟨hl, hr, hlx, hxr⟩ := hsorted.node
    have hlen : l.toList.length + r.toList.length + 1 < fuel := by
      simp [toList] at hfuel
      omega
    cases fuel with
    | zero => omega
    | succ fuel =>
      simp only [lookupLoop, root, hrec]
      split
      · rename_i hlt
        obtain ⟨res, hres, hsome, hnone⟩ := ihr fuel (some x) hrshape hr (by omega)
        refine ⟨res, hres, fun y hy => ?_, fun hn y hy => ?_⟩
        · exact ⟨List.mem_append_right _ (List.mem_cons_of_mem x (hsome y hy).1), (hsome y hy).2⟩
        · rw [toList, List.mem_append, List.mem_cons] at hy
          rcases hy with hy | rfl | hy
          · intro hzero
            have hge := hops.key_ge y x k (hlx y hy) hzero.ge
            omega
          · omega
          · exact hnone hn y hy
      · split
        · rename_i hzero
          refine ⟨some x, rfl, fun y hy => ?_, fun hn => ?_⟩
          · obtain rfl := Option.some.inj hy
            exact ⟨mem_of_root rfl, hzero⟩
          · cases hn
        · rename_i hge hne
          obtain ⟨res, hres, hsome, hnone⟩ := ihl fuel (some x) hlshape hl (by omega)
          refine ⟨res, hres, fun y hy => ?_, fun hn y hy => ?_⟩
          · exact ⟨List.mem_append_left _ (hsome y hy).1, (hsome y hy).2⟩
          · rw [toList, List.mem_append, List.mem_cons] at hy
            rcases hy with hy | rfl | hy
            · exact hnone hn y hy
            · exact hne
            · intro hzero
              have hle := hops.key_le x y k (hxr y hy) hzero.le
              omega

omit [DecidableEq N] in
theorem Sorted.parts (hops : CompareOk ops) {xs : List N} (h : Sorted ops xs) (k : K) :
    ∃ us vs, xs = us ++ xs.filter (fun x => decide (ops.compareKey x k = 0)) ++ vs ∧
      (∀ x, x ∈ us → ops.compareKey x k < 0) ∧ ∀ x, x ∈ vs → 0 < ops.compareKey x k := by
  induction xs with
  | nil => exact ⟨[], [], rfl, fun x hx => absurd hx List.not_mem_nil, fun x hx => absurd hx List.not_mem_nil⟩
  | cons x xs ih =>
    obtain ⟨hx, hxs⟩ := List.pairwise_cons.mp h
    obtain ⟨us, vs, heq, hus, hvs⟩ := ih hxs
    rcases lt_trichotomy (ops.compareKey x k) 0 with hlt | hzero | hgt
    · refine ⟨x :: us, vs, ?_, ?_, hvs⟩
      · rw [List.filter_cons_of_neg (by simpa using hlt.ne)]
        simp only [List.cons_append]
        rw [← heq]
      · intro y hy
        cases List.mem_cons.mp hy with
        | inl heq => rw [heq]; exact hlt
        | inr hy => exact hus y hy
    · -- nothing before an equal node is less
      have hnil : us = [] := by
        apply List.eq_nil_iff_forall_not_mem.mpr
        intro y hy
        have hge := hops.key_ge x y k (hx y (by rw [heq]; simp [hy])) hzero.ge
        have hlt := hus y hy
        omega
      refine ⟨[], vs, ?_, fun y hy => absurd hy List.not_mem_nil, hvs⟩
      rw [List.filter_cons_of_pos (by simpa using hzero)]
      rw [hnil, List.nil_append] at heq
      simp only [List.nil_append, List.cons_append]
      rw [← heq]
    · -- nothing after a greater node is equal
      have hgreater : ∀ y, y ∈ xs → 0 < ops.compareKey y k := by
        intro y hy
        by_contra hle
        have hx' := hops.key_le x y k (hx y hy) (not_lt.mp hle)
        omega
      have hfilter : xs.filter (fun x => decide (ops.compareKey x k = 0)) = [] := by
        rw [List.filter_eq_nil_iff]
        intro y hy
        simpa using (hgreater y hy).ne'
      refine ⟨[], x :: xs, ?_, fun y hy => absurd hy List.not_mem_nil, ?_⟩
      · rw [List.filter_cons_of_neg (by simpa using hgt.ne'), hfilter]
        rfl
      · intro y hy
        cases List.mem_cons.mp hy with
        | inl heq => rw [heq]; exact hgt
        | inr hy => exact hgreater y hy

theorem rbtStep_read {d : Side} {us vs : List N} {x : N} (h : Focus s [] t)
    (hlist : readFrom d.other t.toList = us ++ x :: vs) (hfuel : t.toList.length ≤ fuel) :
    rbtStep fuel s d x = some vs.head? := by
  cases d with
  | right => exact (rbtStep_ok h hlist hfuel).1
  | left =>
    have hrev : t.toList = vs.reverse ++ x :: us.reverse := by
      have hlist' : t.toList.reverse = us ++ x :: vs := hlist
      rw [← List.reverse_reverse t.toList, hlist']
      simp
    have hprev := (rbtStep_ok h hrev hfuel).2
    rw [List.getLast?_reverse] at hprev
    exact hprev

theorem equalEnd_ok {d : Side} {vs : List N} {walk : ℕ} (hops : CompareOk ops) (h : Focus s [] t)
    (hwalk : t.toList.length ≤ walk) (hvs : ∀ y, vs.head? = some y → ops.compareKey y k ≠ 0) (es : List N) :
    ∀ (fuel : ℕ) (us : List N) (x : N), readFrom d.other t.toList = us ++ x :: (es ++ vs) →
      ops.compareKey x k = 0 →
      (∀ y, y ∈ es → ops.compareKey y k = 0) → es.length < fuel →
        equalEnd ops walk fuel s d x = (x :: es).getLast? := by
  induction es with
  | nil =>
    intro fuel us x hlist hx _ hfuel
    cases fuel with
    | zero => exact absurd hfuel (Nat.not_lt_zero _)
    | succ fuel =>
      rw [equalEnd, rbtStep_read h hlist hwalk, List.nil_append]
      cases hhead : vs.head? with
      | none => rfl
      | some y =>
        have hne : ops.compareNode x y ≠ 0 :=
          fun hzero => hvs y hhead ((hops.key_eq x y k hx).mpr (hops.node_symm hzero))
        simp [hne]
  | cons e es ih =>
    intro fuel us x hlist hx hes hfuel
    cases fuel with
    | zero => exact absurd hfuel (Nat.not_lt_zero _)
    | succ fuel =>
      have he := hes e List.mem_cons_self
      have hzero : ops.compareNode x e = 0 := hops.node_symm ((hops.key_eq x e k hx).mp he)
      rw [equalEnd, rbtStep_read h hlist hwalk]
      simp only [List.cons_append, List.head?_cons, Option.bind_some, hzero, ne_eq,
        not_true_eq_false, if_false]
      rw [List.getLast?_cons_cons]
      refine ih fuel (us ++ [x]) e (by rw [hlist]; simp) he (fun y hy => hes y (List.mem_cons_of_mem e hy)) ?_
      rw [List.length_cons] at hfuel
      omega

/-- The nodes equal to a key, in the order of the tree. -/
def equals (ops : RbtreeOps N K) (k : K) (xs : List N) : List N :=
  xs.filter fun x => decide (ops.compareKey x k = 0)

omit [DecidableEq N] in
theorem mem_equals {xs : List N} {x : N} : x ∈ equals ops k xs ↔ x ∈ xs ∧ ops.compareKey x k = 0 := by
  simp [equals]

theorem rbtreeLookup_ends (hops : CompareOk ops) (h : Focus s [] t) (hsorted : Sorted ops t.toList)
    (hfuel : t.toList.length < fuel) :
    rbtreeLookupFirst ops fuel s k = some (equals ops k t.toList).head? ∧
      rbtreeLookupLast ops fuel s k = some (equals ops k t.toList).getLast? := by
  obtain ⟨us, vs, hparts, hus, hvs⟩ := hsorted.parts hops k
  obtain ⟨res, hres, hsome, hnone⟩ := lookupLoop_ok (k := k) hops t fuel none h.shape hsorted hfuel
  have hnode : s.node = t.root := h.hole
  have hlookup : rbtreeLookup ops fuel s k = some res := by
    rw [rbtreeLookup, hnode]
    exact hres
  cases res with
  | none =>
    have hnil : equals ops k t.toList = [] := by
      apply List.eq_nil_iff_forall_not_mem.mpr
      intro x hx
      exact hnone rfl x (mem_equals.mp hx).1 (mem_equals.mp hx).2
    rw [hnil, rbtreeLookupFirst, rbtreeLookupLast, lookupEnd, lookupEnd, hlookup]
    exact ⟨rfl, rfl⟩
  | some x =>
    obtain ⟨hx, hzero⟩ := hsome x rfl
    obtain ⟨es, es', hes⟩ := List.append_of_mem (mem_equals.mpr ⟨hx, hzero⟩)
    have hall : ∀ y, y ∈ es ++ x :: es' → ops.compareKey y k = 0 := fun y hy => (mem_equals.mp (hes ▸ hy)).2
    have hlist : t.toList = us ++ es ++ x :: (es' ++ vs) := by
      conv_lhs => rw [hparts]
      change us ++ equals ops k t.toList ++ vs = _
      rw [hes]
      simp
    have hlen : es.length + es'.length < t.toList.length := by
      rw [hlist]
      simp
      omega
    constructor
    · have hread : readFrom Side.left.other t.toList = (es' ++ vs).reverse ++
        x :: (es.reverse ++ us.reverse) := by
        rw [hlist]
        simp [readFrom, Side.other]
      have hend := equalEnd_ok (d := .left) (k := k) hops h hfuel.le
        (fun y hy => (hus y (List.mem_reverse.mp (List.mem_of_mem_head? hy))).ne) es.reverse fuel
          _ x hread hzero
        (fun y hy => hall y (List.mem_append_left _ (List.mem_reverse.mp hy)))
          (by rw [List.length_reverse]; omega)
      rw [rbtreeLookupFirst, lookupEnd, hlookup, Option.bind_some, hes]
      simp only [hend]
      cases es with
      | nil => rfl
      | cons e es => simp [List.getLast?_cons]
    · have hread : readFrom Side.right.other t.toList = (us ++ es) ++ x :: (es' ++ vs) := hlist
      have hend := equalEnd_ok (d := .right) (k := k) hops h hfuel.le
        (fun y hy => (hvs y (List.mem_of_mem_head? hy)).ne') es' fuel _ x hread hzero
        (fun y hy => hall y (List.mem_append_right _ (List.mem_cons_of_mem x hy))) (by omega)
      rw [rbtreeLookupLast, lookupEnd, hlookup, Option.bind_some, hes]
      simp only [hend]
      simp [List.getLast?_append, List.getLast?_cons]

theorem rbtreeLookup_steps (hops : CompareOk ops) (h : Focus s [] t) (hsorted : Sorted ops t.toList)
    (hfuel : t.toList.length < fuel) {es es' : List N} {x : N}
    (hes : equals ops k t.toList = es ++ x :: es') :
    rbtreeLookupNext ops fuel s x = some es'.head? ∧ rbtreeLookupPrev ops fuel s x = some es.getLast? := by
  obtain ⟨us, vs, hparts, hus, hvs⟩ := hsorted.parts hops k
  have hlist : t.toList = (us ++ es) ++ x :: (es' ++ vs) := by
    conv_lhs => rw [hparts]
    change us ++ equals ops k t.toList ++ vs = _
    rw [hes]
    simp
  have hall : ∀ y, y ∈ es ++ x :: es' → ops.compareKey y k = 0 := fun y hy => (mem_equals.mp (hes ▸ hy)).2
  have hx := hall x (List.mem_append_right _ List.mem_cons_self)
  obtain ⟨hnext, hprev⟩ := rbtStep_ok h hlist hfuel.le
  -- an equal neighbour is found, and one that is not equal is not
  have hsame : ∀ y, ops.compareKey y k = 0 → ops.compareNode y x = 0 :=
    fun y hy => (hops.key_eq x y k hx).mp hy
  have hother : ∀ y, ops.compareKey y k ≠ 0 → ops.compareNode y x ≠ 0 := fun y hy hzero =>
    hy ((hops.key_eq x y k hx).mpr hzero)
  constructor
  · rw [rbtNext] at hnext
    rw [rbtreeLookupNext, lookupStep, hnext, Option.map_some]
    cases es' with
    | cons e es' => simp [hsame e (hall e (by simp))]
    | nil =>
      cases vs with
      | nil => rfl
      | cons v vs => simp [hother v (hvs v List.mem_cons_self).ne']
  · rw [rbtPrev] at hprev
    rw [rbtreeLookupPrev, lookupStep, hprev, Option.map_some]
    rcases List.eq_nil_or_concat es with rfl | ⟨es₀, e, rfl⟩
    · rcases List.eq_nil_or_concat us with rfl | ⟨us₀, u, rfl⟩
      · rfl
      · simp [hother u (hus u (by simp)).ne]
    · simp [hsame e (hall e (by simp))]

/-! ## Inserting -/

/-- The link a hole is. -/
def linkOf : List (Frame N) → Option (N × Side)
  | [] => none
  | f :: _ => some (f.id, f.side)

/-- Where the descent of an insertion is: what is before the place is not greater, what is after it is. -/
structure Between (ops : RbtreeOps N K) (x : N) (multi : Bool) (us vs : List N) : Prop where
  before : ∀ y, y ∈ us → ops.compareNode y x ≤ 0
  after : ∀ y, y ∈ vs → 0 < ops.compareNode y x
  unique : multi = false → ∀ y, y ∈ us → ops.compareNode y x ≠ 0

omit [DecidableEq N] in
theorem between_root (ops : RbtreeOps N K) (x : N) (multi : Bool) :
    Between ops x multi (before ([] : List (Frame N))) (after ([] : List (Frame N))) :=
  ⟨fun _ hy => absurd hy List.not_mem_nil, fun _ hy => absurd hy List.not_mem_nil,
    fun _ _ hy => absurd hy List.not_mem_nil⟩

theorem insertPoint_ok (hops : CompareOk ops) {x : N} {multi : Bool} (t : RbTree N) :
    ∀ (fuel : ℕ) (fs : List (Frame N)) (leftmost : Bool), Focus s fs t → Sorted ops t.toList →
      t.toList.length < fuel →
      Between ops x multi (before fs) (after fs) → (leftmost = true ↔ before fs = []) →
      (∃ y, insertPoint ops fuel s x multi (linkOf fs) leftmost t.root = some (.present y) ∧ multi = false ∧
        y ∈ t.toList ∧ ops.compareNode y x = 0) ∨
      (∃ gs first, insertPoint ops fuel s x multi (linkOf fs) leftmost t.root =
        some (.link (linkOf gs) first) ∧
        Focus s gs nil ∧ plug gs nil = plug fs t ∧ Between ops x multi (before gs) (after gs) ∧
        (first = true ↔ before gs = [])) := by
  induction t with
  | nil =>
    intro fuel fs leftmost h _ hfuel hbetween hleft
    cases fuel with
    | zero => exact absurd hfuel (Nat.not_lt_zero _)
    | succ fuel => exact Or.inr ⟨fs, leftmost, rfl, h, rfl, hbetween, hleft⟩
  | node c l p r ihl ihr =>
    intro fuel fs leftmost h hsorted hfuel hbetween hleft
    obtain ⟨hrec, -, -⟩ := h.shape
    obtain ⟨hl, hr, hlp, hpr⟩ := hsorted.node
    have hlen : l.toList.length + r.toList.length + 1 < fuel := by
      simp [toList] at hfuel
      omega
    cases fuel with
    | zero => omega
    | succ fuel =>
      simp only [insertPoint, root, hrec]
      split
      · -- the node goes to the left of a greater one
        rename_i hgt
        have hfocus : Focus s (⟨.left, c, p, r⟩ :: fs) l := focus_cons.mpr h
        have hbetween' : Between ops x multi (before (⟨.left, c, p, r⟩ :: fs))
            (after (⟨.left, c, p, r⟩ :: fs)) := by
          refine ⟨by
            simpa [before] using hbetween.before, fun y hy => ?_, by simpa [before] using hbetween.unique⟩
          simp only [after, List.mem_append, List.mem_cons] at hy
          rcases hy with (rfl | hy) | hy
          · exact hgt
          · exact hops.gt_of_le_of_gt (hpr y hy) hgt
          · exact hbetween.after y hy
        have hleft' : leftmost = true ↔ before (⟨.left, c, p, r⟩ :: fs) = [] := by simpa [before] using hleft
        rcases ihl fuel _ leftmost hfocus hl (by omega) hbetween' hleft'
          with ⟨y, hy, hm, hmem, hz⟩ | ⟨gs, first, hgs⟩
        · exact Or.inl ⟨y, hy, hm, List.mem_append_left _ hmem, hz⟩
        · exact Or.inr ⟨gs, first, hgs⟩
      · rename_i hle
        split
        · rename_i hzero
          exact Or.inl ⟨p, rfl, hzero.2, mem_of_root rfl, hzero.1⟩
        · rename_i hne
          have hfocus : Focus s (⟨.right, c, p, l⟩ :: fs) r := focus_cons.mpr h
          have hbetween' : Between ops x multi (before (⟨.right, c, p, l⟩ :: fs))
              (after (⟨.right, c, p, l⟩ :: fs)) := by
            refine ⟨fun y hy => ?_, by simpa [after] using hbetween.after, fun hm y hy => ?_⟩
            · simp only [before, List.mem_append, List.mem_singleton] at hy
              rcases hy with hy | hy | rfl
              · exact hbetween.before y hy
              · exact hops.node_trans y p x (hlp y hy) (not_lt.mp hle)
              · exact not_lt.mp hle
            · have hlt : ops.compareNode p x < 0 := lt_of_le_of_ne (not_lt.mp hle) fun hz => hne ⟨hz, hm⟩
              simp only [before, List.mem_append, List.mem_singleton] at hy
              rcases hy with hy | hy | rfl
              · exact hbetween.unique hm y hy
              · exact (hops.lt_of_le_of_lt (hlp y hy) hlt).ne
              · exact hlt.ne
          have hleft' : false = true ↔ before (⟨.right, c, p, l⟩ :: fs) = [] := by simp [before]
          rcases ihr fuel _ false hfocus hr (by omega) hbetween' hleft'
            with ⟨y, hy, hm, hmem, hz⟩ | ⟨gs, first, hgs⟩
          · exact Or.inl ⟨y, hy, hm, List.mem_append_right _ (List.mem_cons_of_mem p hmem), hz⟩
          · exact Or.inr ⟨gs, first, hgs⟩

theorem rbtLinkNode_focus {fs : List (Frame N)} {x : N} (h : Focus s fs nil) (hx : x ∉ frameIds fs) :
    Focus (rbtLinkNode s x (linkOf fs)) fs (node .red nil x nil) := by
  have h1 : Holds s none fs [.cell x (s.heap x)] := by
    refine ⟨h.hole, fun pc hpc => ?_, ?_⟩
    · rw [List.mem_singleton.mp hpc]
      rfl
    · have hfs : (frameIds fs).Nodup := (List.nodup_append.mp h.nodup).1
      simp [Piece.ids, List.nodup_append, hfs]
      exact fun y hy heq => hx (heq ▸ hy)
  have h2 := h1.put 0 rfl ⟨above fs, .red, none, none⟩
  have hcount : ∀ z, (node .red nil x nil : RbTree N).toList.count z =
      (([.cell x ⟨above fs, .red, none, none⟩] : List (Piece N)).flatMap Piece.ids).count z := by
    intro z
    simp [Piece.ids, toList]
  cases fs with
  | nil =>
    have h3 : Holds (rbtLinkNode s x none) (some x) [] [.cell x ⟨none, .red, none, none⟩] :=
      ⟨rfl, h2.each, h2.nodup⟩
    exact h3.focus rfl ⟨h3.cell 0 rfl, trivial, trivial⟩ hcount
  | cons f fs =>
    have h3 := h2.relink (some x)
    exact h3.focus rfl ⟨h3.cell 0 rfl, trivial, trivial⟩ hcount

end Skp.Adt
