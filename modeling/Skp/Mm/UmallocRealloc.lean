import Skp.Mm.UmallocCalls
import Skp.Mm.UmallocFirst

/-! # What `umalloc` and `urealloc` return

The size and the address of a result come from the step that hands the block out; what `urealloc`
copies is still the old block's when the copy begins, because nobody else has touched it. -/
namespace Skp.Mm
set_option autoImplicit false
open Skp.Foundations
open Skp.Utils

variable {T : Type} [DecidableEq T] {s s' : UmallocState T} {b dst src : UserBlock}
    {act : UmallocAct T} {own : List UserBlock} {t : T}
  {n p size x : ℕ}

/-! ## `umalloc` -/

theorem UmallocRun.inv (h : UmallocInv s) (hrun : UmallocRun own t s size p s') : UmallocInv s' := by
  cases hrun with
  | fail hrun => exact hrun.inv h
  | hand hrun hhand hs => exact umallocInv_step (hrun.inv h) hs

theorem UmallocRun.kept (h : UmallocInv s) (hrun : UmallocRun own t s size p s') (hown : b ∈ own)
    (hb : b.Held s) :
    b.Held s' ∧ ∀ a, b.Covers a → s'.mem a = s.mem a := by
  cases hrun with
  | fail hrun => exact hrun.kept h hown hb
  | hand hrun hhand hs =>
    obtain ⟨hheld, hmem⟩ := hrun.kept h hown hb
    obtain ⟨hheld', hmem'⟩ := (hrun.inv h).owners.held_step hs hheld ((umallocHands_eq_some hhand).spares b)
    exact ⟨hheld', fun a ha => (hmem' a ha).trans (hmem a ha)⟩

/-- A result that is not NULL is a block that was handed out. -/
theorem UmallocRun.handed (h : UmallocInv s) (hrun : UmallocRun own t s size p s') (hp : p ≠ 0) :
    ∃ (s₁ : UmallocState T) (act : UmallocAct T) (b : UserBlock), UmallocInv s₁ ∧
      (∀ b' ∈ own, b'.Held s → b'.Held s₁) ∧
      Handing s₁ t size act b ∧ umallocStep s₁ act = some s' ∧ p = b.addr := by
  cases hrun with
  | fail hrun => exact absurd rfl hp
  | hand hrun hhand hs =>
    exact ⟨_, _, _, hrun.inv h, fun b' hown hb => (hrun.kept h hown hb).1,
      umallocHands_eq_some hhand, hs, rfl⟩

theorem UmallocRun.size_le (h : UmallocInv s) (hrun : UmallocRun own t s size p s') (hp : p ≠ 0)
    (hsize : size ≤ 2 ^ 64 - 8) :
    size ≤ usize s' p := by
  obtain ⟨s₁, act, b, hinv, -, hhand, hs, rfl⟩ := hrun.handed h hp
  obtain ⟨hheld, -, -⟩ := hinv.owners.handing_step hhand hs
  rw [(umallocInv_step hinv hs).usize_eq hheld]
  exact hhand.size_le (by omega) hsize

/-! ## The first call -/

theorem first_call (size : ℕ) (i : CacheIndex) (hi : (classOf i).order = 0) (t : T)
    (hsize : getIndex size = some i.val) :
    ∃ (acts acts' : List (UmallocAct T)) (s s' : UmallocState T),
      runActs umallocStep umallocInit acts = some s ∧
      UmallocRun [] t s size (UserBlock.obj i (firstPage, 0)).addr s' ∧
        runActs umallocStep umallocInit acts' = some s' ∧
      (UserBlock.obj i (firstPage, 0)).Held s' := by
  obtain ⟨acts, s, s', hrun, hhanded, -, hs⟩ := first_object i hi t
  have hinv := umallocInv_run umallocInv_init hrun
  have hhand : umallocHands s t size (.slab i (.alloc t)) = some (.obj i (firstPage, 0)) := by
    rw [umallocHands, if_pos ⟨rfl, hsize⟩, hhanded]
    rfl
  refine ⟨acts, acts ++ [.slab i (.alloc t)], s, s', hrun,
    .hand ⟨[], rfl, fun _ hact => by cases hact⟩ hhand hs, ?_, ?_⟩
  · rw [runActs_append, hrun]
    exact runActs_cons_eq_some.mpr ⟨s', hs, rfl⟩
  · exact (hinv.owners.handing_step (umallocHands_eq_some hhand) hs).1

/-! ## Freeing -/

omit [DecidableEq T] in
theorem UfreeAct.spares (hact : UfreeAct t src act) (hne : dst ≠ src) : dst.Spares act := by
  cases hact with
  | slab i o r =>
    intro o' ho'
    obtain rfl := Option.some.inj ho'
    exact hne
  | pool i o =>
    intro o' ho'
    obtain rfl := Option.some.inj ho'
    exact hne
  | pages b => exact hne

theorem UfreeAct.held (hact : UfreeAct t b act) (hs : umallocStep s act = some s') : b.Held s := by
  cases hact with
  | slab i o r =>
    obtain ⟨c, hc, -, -⟩ := umallocStep_slab hs
    exact ((slabStep_move hc).freed o rfl).1
  | pool i o =>
    obtain ⟨c, hc, -, -⟩ := umallocStep_slab hs
    exact ((slabStep_move hc).freed o rfl).1
  | pages b => exact (Option.ite_none_right_eq_some.mp hs).1

theorem UfreeAct.gives_back (h : Owners s) (hact : UfreeAct t b act)
    (hs : umallocStep s act = some s') : ¬b.Held s' := by
  have hslab {i : CacheIndex} {o : Obj} {a : SlabAct T} (hfreed : freedObj a = some o)
      (hs : umallocStep s (.slab i a) = some s') :
      o ∉ (s'.cache i).held := by
    obtain ⟨c, hc, hcache, -⟩ := umallocStep_slab hs
    have hnodup : (s.cache i).held.Nodup := (h.cache i).placed.nodup .user
    rw [hcache, Function.update_self, ((slabStep_move hc).freed o hfreed).2, hnodup.mem_erase_iff]
    exact fun hin => hin.1 rfl
  cases hact with
  | slab i o r => exact hslab rfl hs
  | pool i o => exact hslab rfl hs
  | pages b =>
    obtain ⟨-, heq⟩ := Option.ite_none_right_eq_some.mp hs
    obtain rfl := Option.some.inj heq
    exact Finset.notMem_erase _ _

theorem UfreeRun.kept (h : UmallocInv s) (hrun : UfreeRun own t s x s') (hown : b ∈ own)
    (hb : b.Held s) (hne : b.addr ≠ x) :
    UmallocInv s' ∧ b.Held s' ∧ ∀ a, b.Covers a → s'.mem a = s.mem a := by
  cases hrun with
  | none hx => exact ⟨h, hb, fun _ _ => rfl⟩
  | free hx haddr hrun hact hs hrest =>
    obtain ⟨hheld₁, hmem₁⟩ := hrun.kept h hown hb
    have hinv₁ := hrun.inv h
    have hspares := hact.spares fun heq : b = _ => hne (heq.symm ▸ haddr)
    obtain ⟨hheld₂, hmem₂⟩ := hinv₁.owners.held_step hs hheld₁ hspares
    have hinv₂ := umallocInv_step hinv₁ hs
    obtain ⟨hheld, hmem⟩ := hrest.kept hinv₂ hown hheld₂
    exact ⟨hrest.inv hinv₂, hheld, fun a ha => (hmem a ha).trans ((hmem₂ a ha).trans (hmem₁ a ha))⟩

/-! ## Copying -/

/-- What a copy has done so far. -/
structure Copied (dst src : UserBlock) (s s' : UmallocState T) (n : ℕ) : Prop where
  inv : UmallocInv s'
  dstHeld : dst.Held s'
  srcHeld : src.Held s'
  same : ∀ a, src.Covers a → s'.mem a = s.mem a
  bytes : ∀ k, k < n → s'.mem (dst.addr + k) = s.mem (src.addr + k)

theorem MemcpyRun.copied (h : UmallocInv s) (hdst : dst.Held s) (hsrc : src.Held s)
    (hne : dst ≠ src) (hn : n ≤ src.size)
    (hn' : n ≤ dst.size) (hcopy : MemcpyRun dst src s n s') : Copied dst src s s' n := by
  induction hcopy with
  | nil => exact ⟨h, hdst, hsrc, fun _ _ => rfl, fun k hk => absurd hk (Nat.not_lt_zero k)⟩
  | @byte n s₁ s₂ s' hcopy hrun hs ih =>
    have hprev := ih (Nat.le_of_succ_le hn) (Nat.le_of_succ_le hn')
    obtain ⟨hdst₂, hdmem⟩ := hrun.kept hprev.inv List.mem_cons_self hprev.dstHeld
    obtain ⟨hsrc₂, hsmem⟩ := hrun.kept hprev.inv (List.mem_cons_of_mem _ List.mem_cons_self) hprev.srcHeld
    have hinv₂ := hrun.inv hprev.inv
    obtain ⟨hsrc', hsame⟩ := hinv₂.owners.held_step hs hsrc₂ hne.symm
    obtain ⟨-, heq⟩ := Option.ite_none_right_eq_some.mp hs
    have hmem : s'.mem = Function.update s₂.mem (dst.addr + n) (s₂.mem (src.addr + n)) := by
      rw [← Option.some.inj heq]
    have hdst' : dst.Held s' := by
      rw [← Option.some.inj heq]
      cases dst <;> exact hdst₂
    have hkeep (a : ℕ) (ha : src.Covers a) : s₂.mem a = s.mem a := (hsmem a ha).trans (hprev.same a ha)
    refine ⟨umallocInv_step hinv₂ hs, hdst', hsrc', fun a ha => (hsame a ha).trans (hkeep a ha), ?_⟩
    intro k hk
    rw [hmem]
    by_cases hlast : k = n
    · subst hlast
      rw [Function.update_self]
      exact hkeep _ ⟨Nat.le_add_right _ _, Nat.add_lt_add_left hn _⟩
    · have hlt : k < n := by omega
      have hcovers : dst.Covers (dst.addr + k) := ⟨Nat.le_add_right _ _, Nat.add_lt_add_left (by omega) _⟩
      rw [Function.update_of_ne (by omega), hdmem _ hcovers]
      exact hprev.bytes k hlt

/-! ## `urealloc` -/

theorem urealloc_move {s₁ s₂ : UmallocState T} (h : UmallocInv s) (hb : b.Held s) (hsize : size ≤ 2 ^ 64 - 8)
    (hrun : UmallocRun [b] t s size dst.addr s₁) (hdst : dst.Held s₁) (hne : dst.addr ≠ 0)
    (hcopy : MemcpyRun dst b s₁ (min size b.size) s₂) (hfree : UfreeRun [dst] t s₂ b.addr s') :
    size ≤ usize s' dst.addr ∧ ∀ k, k < min b.size size → s'.mem (dst.addr + k) = s.mem (b.addr + k) := by
  have hinv₁ := hrun.inv h
  obtain ⟨hb₁, hkept⟩ := hrun.kept h List.mem_cons_self hb
  obtain ⟨s₀, act, b', hinv₀, hown, hhand, hs, haddr⟩ := hrun.handed h hne
  obtain ⟨hheld, hnew, -⟩ := hinv₀.owners.handing_step hhand hs
  obtain rfl : dst = b' :=
    hinv₁.owners.eq_of_addr (hinv₁.owners.held_known hdst) (hinv₁.owners.held_known hheld) haddr
  have hapart : dst ≠ b := by
    rintro rfl
    exact hnew (hown dst List.mem_cons_self hb)
  have hfit : size ≤ dst.size := hhand.size_le (by omega) hsize
  have hdone :=
    hcopy.copied hinv₁ hdst hb₁ hapart (Nat.min_le_right _ _) (le_trans (Nat.min_le_left _ _) hfit)
  have haway : dst.addr ≠ b.addr := fun heq =>
    hapart (hdone.inv.owners.eq_of_addr (hdone.inv.owners.held_known hdone.dstHeld)
      (hdone.inv.owners.held_known hdone.srcHeld) heq)
  obtain ⟨hinv', hheld', hmem'⟩ := hfree.kept hdone.inv List.mem_cons_self hdone.dstHeld haway
  rw [hinv'.usize_eq hheld']
  refine ⟨hfit, ?_⟩
  intro k hk
  have hcovers : dst.Covers (dst.addr + k) := ⟨Nat.le_add_right _ _, Nat.add_lt_add_left (by omega) _⟩
  have hcovers' : b.Covers (b.addr + k) := ⟨Nat.le_add_right _ _, Nat.add_lt_add_left (by omega) _⟩
  calc s'.mem (dst.addr + k) = s₂.mem (dst.addr + k) := hmem' _ hcovers
    _ = s₁.mem (b.addr + k) := hdone.bytes k (by omega)
    _ = s.mem (b.addr + k) := hkept _ hcovers'

theorem UreallocRun.result (h : UmallocInv s) (hrun : UreallocRun t s x size p s') (hpos : 0 < size)
    (hsize : size ≤ 2 ^ 64 - 8) :
    (p = 0 ∧ ∀ q : UserBlock, q.Held s → q.addr = x → q.Held s' ∧ ∀ a, q.Covers a → s'.mem a = s.mem a) ∨
      (size ≤ usize s' p ∧ ∀ k, k < min (usize s x) size → s'.mem (p + k) = s.mem (x + k)) := by
  cases hrun with
  | null hx hrun =>
    subst hx
    by_cases hp : p = 0
    · left
      refine ⟨hp, fun q hq haddr => ?_⟩
      have hok := h.addr_ok (h.owners.held_known hq)
      rw [haddr] at hok
      cases hok
    · right
      refine ⟨hrun.size_le h hp hsize, fun k hk => ?_⟩
      have hnull : usize s 0 = 0 := rfl
      rw [hnull, Nat.zero_min] at hk
      exact absurd hk (Nat.not_lt_zero k)
  | err hx => exact .inl ⟨rfl, fun q hq _ => ⟨hq, fun _ _ => rfl⟩⟩
  | zero hx hzero hfree => omega
  | keep hx hzero hle => exact .inr ⟨hle, fun _ _ => rfl⟩
  | fail hx hlt hb haddr hrun =>
    left
    refine ⟨rfl, fun q hq hqaddr => ?_⟩
    obtain rfl :=
      h.owners.eq_of_addr (h.owners.held_known hb) (h.owners.held_known hq)
        (haddr.trans hqaddr.symm)
    exact hrun.kept h List.mem_cons_self hb
  | move hx hlt hb haddr hrun hdst hne hcopy hfree =>
    right
    subst haddr
    rw [h.usize_eq hb] at hcopy ⊢
    exact urealloc_move h hb hsize hrun hdst hne hcopy hfree

theorem UreallocRun.zero_result (h : UmallocInv s) (hrun : UreallocRun t s b.addr 0 p s') (hb : b.Held s) :
    p = 0 ∧ ∃ s₁, ActsRun [] s s₁ ∧ ¬b.Held s₁ ∧ ActsRun [] s₁ s' := by
  have hok := h.addr_ok (h.owners.held_known hb)
  cases hrun with
  | null hx hrun =>
    rw [hx] at hok
    cases hok
  | err hx =>
    rw [isErrOrNull, hx, Bool.or_true] at hok
    cases hok
  | zero hx hzero hfree =>
    refine ⟨rfl, ?_⟩
    cases hfree with
    | none hx' =>
      rw [hx'] at hx
      cases hx
    | @free b' act s₁ s₂ s' hx' haddr hrun hact hs hrest =>
      by_cases hheld : b.Held s₁
      · have hinv₁ := hrun.inv h
        have hsame : b' = b :=
          hinv₁.owners.eq_of_addr (hinv₁.owners.held_known (hact.held hs))
            (hinv₁.owners.held_known hheld) haddr
        subst hsame
        exact ⟨s₂, hrun.step hs, hact.gives_back hinv₁.owners hs, hrest⟩
      · exact ⟨s₁, hrun, hheld, hrest.cons hs⟩
  | keep hx hzero hle => exact absurd rfl hzero
  | fail hx hlt hb haddr hrun => exact absurd hlt (Nat.not_lt_zero _)
  | move hx hlt hb haddr hrun hdst hne hcopy hfree => exact absurd hlt (Nat.not_lt_zero _)

/-- Where rounding does not wrap, a result is large enough, and `urealloc` loses no byte. -/
theorem umalloc_usize {acts : List (UmallocAct T)} (hrun : runActs umallocStep umallocInit acts = some s) :
    (∀ (own : List UserBlock) (size p : ℕ) (s' : UmallocState T), size ≤ 2 ^ 64 - 8 →
      UmallocRun own t s size p s' → p ≠ 0 →
        size ≤ usize s' p) ∧
      (∀ (x size p : ℕ) (s' : UmallocState T), 0 < size → size ≤ 2 ^ 64 - 8 → UreallocRun t s x size p s' →
        (p = 0 ∧ ∀ q : UserBlock, q.Held s → q.addr = x → q.Held s' ∧ ∀ a, q.Covers a → s'.mem a = s.mem a) ∨
          (size ≤ usize s' p ∧ ∀ k, k < min (usize s x) size → s'.mem (p + k) = s.mem (x + k))) ∧
      (∀ (q : UserBlock) (p : ℕ) (s' : UmallocState T), q.Held s → UreallocRun t s q.addr 0 p s' →
        p = 0 ∧ ∃ s₁, ActsRun [] s s₁ ∧ ¬q.Held s₁ ∧ ActsRun [] s₁ s') := by
  have hinv := umallocInv_run umallocInv_init hrun
  refine ⟨?_, ?_, ?_⟩
  · intro own size p s' hsize hcall hp
    exact hcall.size_le hinv hp hsize
  · intro x size p s' hpos hsize hcall
    exact hcall.result hinv hpos hsize
  · intro q p s' hq hcall
    exact hcall.zero_result hinv hq

theorem umalloc_usize_eight : ∃ (acts acts' : List (UmallocAct Unit)) (s s' : UmallocState Unit) (p : ℕ),
    runActs umallocStep umallocInit acts = some s ∧ UmallocRun [] () s 8 p s' ∧ 8 ≤ usize s' p ∧
      runActs umallocStep umallocInit acts' = some s' ∧ UreallocRun () s' p 5 p s' ∧
      ((p = 0 ∧ ∀ q : UserBlock, q.Held s' → q.addr = p → q.Held s' ∧ ∀ a, q.Covers a → s'.mem a = s'.mem a) ∨
        (5 ≤ usize s' p ∧ ∀ k, k < min (usize s' p) 5 → s'.mem (p + k) = s'.mem (p + k))) := by
  obtain ⟨acts, acts', s, s', hrun, hcall, hrun', hheld⟩ :=
    first_call 8 ⟨3, by decide⟩ (by decide) () (by decide)
  have hinv := umallocInv_run umallocInv_init hrun'
  have hok := hinv.addr_ok (hinv.owners.held_known hheld)
  have hne := hinv.addr_ne_zero hheld
  have hlarge := (umalloc_usize (t := ()) hrun).1 [] 8 _ s' (by decide) hcall hne
  have hkeep : UreallocRun () s' (UserBlock.obj ⟨3, by decide⟩ (firstPage, 0)).addr 5
      (UserBlock.obj ⟨3, by decide⟩ (firstPage, 0)).addr s' :=
    .keep hok (by decide) (le_trans (by decide) hlarge)
  exact ⟨acts, acts', s, s', _, hrun, hcall, hlarge, hrun', hkeep,
    (umalloc_usize hrun').2.1 _ 5 _ s' (by decide) (by decide) hkeep⟩

/-- The last sizes are rounded to 0 and get an object of the first class; a size of 0 frees the block. -/
theorem umalloc_wraps_urealloc_frees :
    (∃ (acts : List (UmallocAct Unit)) (s s' : UmallocState Unit) (p : ℕ),
      runActs umallocStep umallocInit acts = some s ∧
      UmallocRun [] () s (2 ^ 64 - 1) p s' ∧ p ≠ 0 ∧ usize s' p < 2 ^ 64 - 1) ∧
    ∃ (acts : List (UmallocAct Unit)) (s s' : UmallocState Unit) (q : UserBlock),
      runActs umallocStep umallocInit acts = some s ∧
      q.Held s ∧ UreallocRun () s q.addr 0 0 s' ∧ ¬q.Held s' := by
  constructor
  · have hclass : getIndex (2 ^ 64 - 1) = some 0 := getIndex_wraps (by omega) (by omega)
    obtain ⟨acts, acts', s, s', hrun, hcall, hrun', hheld⟩ :=
      first_call (2 ^ 64 - 1) ⟨0, by decide⟩ (by decide) () hclass
    have hinv := umallocInv_run umallocInv_init hrun'
    refine ⟨acts, s, s', _, hrun, hcall, hinv.addr_ne_zero hheld, ?_⟩
    rw [hinv.usize_eq hheld]
    have hsize : (classSizes 0).size = 896 := by decide
    show (classSizes 0).size < 2 ^ 64 - 1
    omega
  · obtain ⟨acts, acts', s, s', hrun, hcall, hrun', hheld⟩ :=
      first_call 8 ⟨3, by decide⟩ (by decide) () (by decide)
    have hinv := umallocInv_run umallocInv_init hrun'
    have hok := hinv.addr_ok (hinv.owners.held_known hheld)
    have hmay : s'.MaySlab ⟨3, by decide⟩ (.slabFree () (firstPage, 0) ⟨false, 0⟩) := fun p hp => by cases hp
    obtain ⟨s'', hs'', -⟩ := umallocStep_of_slab hmay (if_pos hheld)
    have hact : UfreeAct () (.obj ⟨3, by decide⟩ (firstPage, 0))
        (.slab ⟨3, by decide⟩ (.slabFree () (firstPage, 0) ⟨false, 0⟩)) :=
      .slab _ _ _
    have hnone (s : UmallocState Unit) : ActsRun [] s s := ⟨[], rfl, fun _ hact => by cases hact⟩
    exact ⟨acts', s', s'', _, hrun', hheld, .zero hok rfl (.free hok rfl (hnone s') hact hs'' (hnone s'')),
      hact.gives_back hinv.owners hs''⟩

end Skp.Mm
