import Skp.Mm.UmallocDesc

/-! # The functions of `umalloc`

A call is a run of steps of all threads; its last one, or one in it, is the step that hands a block
out or takes one back. What the caller has meanwhile is neither freed nor written by others. -/
namespace Skp.Mm
set_option autoImplicit false
open Skp.Foundations
open Skp.Utils

variable {T : Type} [DecidableEq T]

/-! ## Addresses and sizes -/

def maxErrno : ℕ := 4095

def isErr (x : ℕ) : Bool := decide (2 ^ 64 - maxErrno ≤ x)

def isErrOrNull (x : ℕ) : Bool := x == 0 || isErr x

def virtToHeadPage (s : UmallocState T) (x : ℕ) : ℕ := (s.desc (virtToPage x)).head.getD (virtToPage x)

def blockOrder (s : UmallocState T) (page : ℕ) : ℤ :=
  if (s.desc page).block then (s.desc (page + 1)).order else 0

def usize (s : UmallocState T) (x : ℕ) : ℕ :=
  if isErrOrNull x then 0
  else
    let page := virtToHeadPage s x
    match (s.desc page).slab with
    | some i => (classOf i).size
    | none => vpageSize * 2 ^ (blockOrder s page).toNat

/-! ## Calls -/

/-- The block that a step of `t` hands out for `__umalloc` of `size`. -/
def umallocHands (s : UmallocState T) (t : T) (size : ℕ) : UmallocAct T → Option UserBlock
  | .slab i (.alloc t') =>
      if t' = t ∧ getIndex size = some i.val then
        (handedObj (umallocParams i) (s.cache i) (.alloc t')).map (UserBlock.obj i)
      else none
  | .takePages b => if getIndex size = none ∧ orderBase2 size = vpageShift + b.2 then
      some (.pages b) else none
  | _ => none

/-- Steps of any threads that leave the blocks of `own` alone. -/
def ActsRun (own : List UserBlock) (s s' : UmallocState T) : Prop :=
  ∃ acts, runActs umallocStep s acts = some s' ∧ ∀ act ∈ acts, ∀ b ∈ own, b.Spares act

/-- `__umalloc`, with its result. -/
inductive UmallocRun (own : List UserBlock) (t : T) (s : UmallocState T) (size : ℕ) :
    ℕ → UmallocState T → Prop
  | fail {s' : UmallocState T} (hrun : ActsRun own s s') : UmallocRun own t s size 0 s'
  | hand {s₁ s' : UmallocState T} {act : UmallocAct T} {b : UserBlock} (hrun : ActsRun own s s₁)
      (hhand : umallocHands s₁ t size act = some b) (hs : umallocStep s₁ act = some s') : UmallocRun
        own t s size b.addr s'

/-- The steps of `t` with which `ufree` lets go of a block. -/
inductive UfreeAct (t : T) : UserBlock → UmallocAct T → Prop
  | slab (i : CacheIndex) (o : Obj) (r : DiscardReads) : UfreeAct t (.obj i o) (.slab i (.slabFree t o r))
  | pool (i : CacheIndex) (o : Obj) : UfreeAct t (.obj i o) (.slab i (.poolFree o))
  | pages (b : ℕ × ℕ) : UfreeAct t (.pages b) (.givePages b)

inductive UfreeRun (own : List UserBlock) (t : T) (s : UmallocState T) (x : ℕ) : UmallocState T → Prop
  | none (hx : isErrOrNull x = true) : UfreeRun own t s x s
  | free {b : UserBlock} {act : UmallocAct T} {s₁ s₂ s' : UmallocState T}
      (hx : isErrOrNull x = false) (hb : b.addr = x)
      (hrun : ActsRun own s s₁) (hact : UfreeAct t b act) (hs : umallocStep s₁ act = some s₂)
        (hrest : ActsRun own s₂ s') :
      UfreeRun own t s x s'

/-- `memcpy` of `n` bytes, byte by byte. -/
inductive MemcpyRun (dst src : UserBlock) (s : UmallocState T) : ℕ → UmallocState T → Prop
  | nil : MemcpyRun dst src s 0 s
  | byte {n : ℕ} {s₁ s₂ s' : UmallocState T} (hcopy : MemcpyRun dst src s n s₁)
      (hrun : ActsRun [dst, src] s₁ s₂)
      (hs : umallocStep s₂ (.write dst n (s₂.mem (src.addr + n))) = some s') : MemcpyRun dst src s (n + 1) s'

/-- `__urealloc`, with its result. -/
inductive UreallocRun (t : T) (s : UmallocState T) (x size : ℕ) : ℕ → UmallocState T → Prop
  | null {p : ℕ} {s' : UmallocState T} (hx : x = 0) (hrun : UmallocRun [] t s size p s') :
      UreallocRun t s x size p s'
  | err (hx : isErr x = true) : UreallocRun t s x size 0 s
  | zero {s' : UmallocState T} (hx : isErrOrNull x = false) (hsize : size = 0)
      (hfree : UfreeRun [] t s x s') : UreallocRun t s x size 0 s'
  | keep (hx : isErrOrNull x = false) (hsize : size ≠ 0) (hle : size ≤ usize s x) : UreallocRun t s x size x s
  | fail {b : UserBlock} {s' : UmallocState T} (hx : isErrOrNull x = false) (hlt : usize s x < size)
      (hb : b.Held s) (haddr : b.addr = x)
      (hrun : UmallocRun [b] t s size 0 s') : UreallocRun t s x size 0 s'
  | move {b dst : UserBlock} {s₁ s₂ s' : UmallocState T} (hx : isErrOrNull x = false)
      (hlt : usize s x < size) (hb : b.Held s)
      (haddr : b.addr = x) (hrun : UmallocRun [b] t s size dst.addr s₁) (hdst : dst.Held s₁)
        (hne : dst.addr ≠ 0)
      (hcopy : MemcpyRun dst b s₁ (min size (usize s x)) s₂)
        (hfree : UfreeRun [dst] t s₂ x s') : UreallocRun t s x size dst.addr s'

/-- What `__ucalloc` asks `__umalloc` for. -/
def ucallocSize (n size : ℕ) : Option ℕ :=
  if n ≠ 0 ∧ (2 ^ 64 - 1) / n < size then none else some (n * size % 2 ^ 64)

/-! ## The size of a block -/

variable {s s' s₁ : UmallocState T} {b b' : UserBlock} {act : UmallocAct T} {own : List UserBlock}
    {t : T} {p size x : ℕ}

theorem UserBlock.size_pos (b : UserBlock) : 0 < b.size := by
  cases b with
  | obj i o =>
    have hsize := (classOf_ok i).1
    show 0 < (classOf i).size
    omega
  | pages b => exact Nat.mul_pos (by decide) (Nat.two_pow_pos _)

theorem UserBlock.covers_addr (b : UserBlock) : b.Covers b.addr :=
  ⟨le_refl _, Nat.lt_add_of_pos_right b.size_pos⟩

section
omit [DecidableEq T]

theorem Owners.eq_of_addr (h : Owners s) (hb : b.Known s) (hb' : b'.Known s)
    (haddr : b.addr = b'.addr) : b = b' := by
  by_contra hne
  exact h.known_apart hb hb' hne b.covers_addr (haddr ▸ b'.covers_addr)

theorem UmallocInv.page_lt {b : ℕ × ℕ} (h : UmallocInv s) (hb : s.Allocated b) :
    b.1 / x64Node.nodePages < maxNumnodes := by
  by_contra hfar
  rw [UmallocState.Allocated, h.far _ (Nat.not_lt.mp hfar)] at hb
  cases hb

theorem UmallocInv.covers_lt {a : ℕ} (h : UmallocInv s) (hb : b.Known s) (ha : b.Covers a) :
    vpageSize ≤ a ∧ a < 2 ^ 47 := by
  have halloc := h.owners.taken _ hb.taken
  have hspan := hb.fits.page ha
  have hnode := (h.owners.nodes.inNode halloc hspan).1
  have hfar := h.page_lt halloc
  have hne := h.owners.nodes.ne_zero halloc
  have hlow : b.home.1 ≤ virtToPage a := hspan.1
  have hpage : vpageSize = 4194304 := rfl
  have hnodes : x64Node.nodePages = 131072 := rfl
  have hmax : maxNumnodes = 256 := rfl
  rw [← hnode, hnodes, hmax, virtToPage, hpage] at hfar
  rw [virtToPage, hpage] at hlow
  rw [hpage]
  omega

theorem UmallocInv.addr_ok (h : UmallocInv s) (hb : b.Known s) : isErrOrNull b.addr = false := by
  obtain ⟨hlow, hhigh⟩ := h.covers_lt hb b.covers_addr
  have hpage : vpageSize = 4194304 := rfl
  rw [isErrOrNull, isErr, maxErrno, Bool.or_eq_false_iff, decide_eq_false_iff_not, beq_eq_false_iff_ne]
  omega

theorem UmallocInv.addr_ne_zero (h : UmallocInv s) (hb : b.Held s) : b.addr ≠ 0 := by
  intro hzero
  have hok := h.addr_ok (h.owners.held_known hb)
  rw [hzero] at hok
  cases hok

/-- `usize` of a block that the user has. -/
theorem UmallocInv.usize_eq (h : UmallocInv s) (hb : b.Held s) : usize s b.addr = b.size := by
  have hknown := h.owners.held_known hb
  have hspan := hknown.fits.page b.covers_addr
  rw [usize, h.addr_ok hknown]
  simp only [Bool.false_eq_true, if_false]
  cases b with
  | obj i o =>
    have hpage := h.desc.slab i o.1 _ hknown.1 hspan
    have hhead : virtToHeadPage s (UserBlock.obj i o).addr = o.1 := by
      rw [virtToHeadPage, hpage.head]
      by_cases hzero : (classOf i).order = 0
      · rw [if_pos hzero]
        have hin : o.1 ≤ virtToPage (UserBlock.obj i o).addr ∧ virtToPage (UserBlock.obj i o).addr <
            o.1 + 2 ^ (classOf i).order := hspan
        rw [hzero] at hin
        show virtToPage (UserBlock.obj i o).addr = o.1
        omega
      · rw [if_neg hzero]
        rfl
    have hstart := (h.desc.slab i o.1 o.1 hknown.1 (start_mem_span (slabBlock i o.1))).slab
    rw [if_pos rfl] at hstart
    rw [hhead, hstart]
    rfl
  | pages b =>
    have hfirst : virtToPage (UserBlock.pages b).addr = b.1 :=
      Nat.mul_div_cancel_left b.1 (by decide : 0 < vpageSize)
    have hstart := h.desc.block b b.1 hknown (start_mem_span b)
    have hhead : virtToHeadPage s (UserBlock.pages b).addr = b.1 := by
      rw [virtToHeadPage, hfirst, hstart.head]
      rfl
    have horder : (blockOrder s b.1).toNat = b.2 := by
      rw [blockOrder, hstart.block]
      by_cases hzero : b.2 = 0
      · simp [hzero]
      · rw [(h.desc.block b (b.1 + 1) hknown (second_mem_span hzero)).order rfl hzero]
        simp [hzero]
    rw [hhead, hstart.slab, horder]
    rfl

end

/-! ## The step that hands a block out -/

/-- A block that is handed out, and why it is large enough. -/
inductive Handing (s : UmallocState T) (t : T) (size : ℕ) : UmallocAct T → UserBlock → Prop
  | obj (i : CacheIndex) (o : Obj) (hi : getIndex size = some i.val)
      (ho : handedObj (umallocParams i) (s.cache i) (.alloc t) = some o) :
      Handing s t size (.slab i (.alloc t)) (.obj i o)
  | pages (b : ℕ × ℕ) (hi : getIndex size = none) (hb : orderBase2 size = vpageShift + b.2) :
      Handing s t size (.takePages b) (.pages b)

theorem umallocHands_eq_some (h : umallocHands s t size act = some b) : Handing s t size act b := by
  cases act with
  | slab i a =>
    cases a with
    | alloc t' =>
      obtain ⟨⟨rfl, hi⟩, heq⟩ := Option.ite_none_right_eq_some.mp h
      obtain ⟨o, ho, rfl⟩ := Option.map_eq_some_iff.mp heq
      exact .obj i o hi ho
    | _ => cases h
  | takePages b' =>
    obtain ⟨⟨hi, hb⟩, heq⟩ := Option.ite_none_right_eq_some.mp h
    obtain rfl := Option.some.inj heq
    exact .pages b' hi hb
  | _ => cases h

theorem umallocStep_slab {i : CacheIndex} {a : SlabAct T} (hs : umallocStep s (.slab i a) = some s') :
    ∃ c, slabStep (umallocParams i) (s.cache i) a = some c ∧ s'.cache = Function.update s.cache i c ∧
      s'.mem = storeWords (objAddr i) (freepointer i) s.mem (slabLinks (umallocParams i) (s.cache i) a) := by
  obtain ⟨-, heq⟩ := Option.ite_none_right_eq_some.mp hs
  obtain ⟨c, hc, rfl⟩ := Option.map_eq_some_iff.mp heq
  exact ⟨c, hc, rfl, rfl⟩

theorem Owners.handing_step (h : Owners s) (hhand : Handing s t size act b)
    (hs : umallocStep s act = some s') :
    b.Held s' ∧ ¬b.Held s ∧ s'.mem = s.mem := by
  cases hhand with
  | obj i o hi ho =>
    obtain ⟨c, hc, hcache, hmem⟩ := umallocStep_slab hs
    refine ⟨?_, ?_, ?_⟩
    · show o ∈ (s'.cache i).held
      rw [hcache, Function.update_self, (slabStep_move hc).handed o ho]
      exact List.mem_cons_self
    · obtain ⟨pl, hpl, rest, hlist⟩ := handedObj_listed ho
      exact ((h.cache i).listed pl hpl (hlist ▸ List.mem_cons_self)).2.2
    · rw [hmem, slabLinks_of_handed ho]
      rfl
  | pages b hi hb =>
    obtain ⟨⟨-, hfree⟩, heq⟩ := Option.ite_none_right_eq_some.mp hs
    obtain rfl := Option.some.inj heq
    exact ⟨Finset.mem_insert_self _ _, fun hin => hfree (Or.inl hin), rfl⟩

omit [DecidableEq T] in
theorem Handing.spares (hhand : Handing s t size act b) (b' : UserBlock) : b'.Spares act := by
  cases hhand with
  | obj i o hi ho =>
    intro o' ho'
    cases ho'
  | pages b hi hb => trivial

omit [DecidableEq T] in
/-- Where the size does not overflow, the block is large enough. -/
theorem Handing.size_le (hhand : Handing s t size act b) (hlt : size < 2 ^ 64)
    (hsize : size ≤ 2 ^ 64 - 8) : size ≤ b.size := by
  cases hhand with
  | obj i o hi ho => exact size_le_class hsize hi
  | pages b hi hb =>
    have hfit := size_le_order (getIndex_none hlt hi).1
    rwa [hb, Nat.add_sub_cancel_left] at hfit

/-! ## Runs -/

theorem ActsRun.inv (h : UmallocInv s) (hrun : ActsRun own s s') : UmallocInv s' := by
  obtain ⟨acts, hacts, -⟩ := hrun
  exact umallocInv_run h hacts

theorem ActsRun.cons (hrun : ActsRun [] s₁ s') (hs : umallocStep s act = some s₁) : ActsRun [] s s' := by
  obtain ⟨acts, hacts, -⟩ := hrun
  exact ⟨act :: acts, runActs_cons_eq_some.mpr ⟨s₁, hs, hacts⟩, fun _ _ b hb => by cases hb⟩

theorem ActsRun.step (hrun : ActsRun [] s s₁) (hs : umallocStep s₁ act = some s') : ActsRun [] s s' := by
  obtain ⟨acts, hacts, -⟩ := hrun
  refine ⟨acts ++ [act], ?_, fun _ _ b hb => by cases hb⟩
  rw [runActs_append, hacts]
  exact runActs_cons_eq_some.mpr ⟨s', hs, rfl⟩

theorem ActsRun.kept (h : UmallocInv s) (hrun : ActsRun own s s') (hown : b ∈ own) (hb : b.Held s) :
    b.Held s' ∧ ∀ a, b.Covers a → s'.mem a = s.mem a := by
  obtain ⟨acts, hacts, hspare⟩ := hrun
  induction acts generalizing s with
  | nil =>
    obtain rfl := Option.some.inj hacts
    exact ⟨hb, fun _ _ => rfl⟩
  | cons act acts ih =>
    obtain ⟨s₁, hs, hrest⟩ := runActs_cons_eq_some.mp hacts
    obtain ⟨hheld, hmem⟩ := h.owners.held_step hs hb (hspare act List.mem_cons_self b hown)
    obtain ⟨hheld', hmem'⟩ := ih (umallocInv_step h hs) hheld hrest fun a ha =>
      hspare a (List.mem_cons_of_mem _ ha)
    exact ⟨hheld', fun a ha => (hmem' a ha).trans (hmem a ha)⟩

end Skp.Mm
