import Skp.Mm.PageCacheModel
import Skp.Mm.BuddyRuns

/-! # No page is lost or has two owners

The buddy system counts every block as allocated that it has not got. In every run these blocks are
what the users hold and the single pages in the threads' lists, each in one place only. -/
namespace Skp.Mm
set_option autoImplicit false
open Skp.Foundations

section Buddy
variable {T : Type} {c : BuddyParams} {b b' : BuddySys T} {z : Zone} {t : T} {page order k : ℕ}

/-! ## What the steps of the node do to the allocated blocks -/

theorem rmqueue_some (h : rmqueue c b.zone order = (z, some page)) : ∃ k, page ∈ b.zone.freeList k := by
  rw [rmqueue] at h
  split at h
  · cases h
  · split at h
    · cases h
    · obtain rfl := Option.some.inj (Prod.mk.inj h).2
      exact ⟨_, by rw [‹b.zone.freeList _ = _›]; exact List.mem_cons_self⟩

theorem BuddyInv.fresh (h : BuddyInv c 1 b) (hq : rmqueue c b.zone order = (z, some page)) :
    (page, k) ∉ b.alloc := by
  obtain ⟨l, hl⟩ := rmqueue_some hq
  intro ha
  have heq := h.core.order_eq (p := page) (k := k) (l := l) (Or.inl ha) (Or.inr hl)
  subst heq
  exact h.core.apart _ ha hl

theorem firstFree_none {n l : ℕ} (h : firstFree z n k = none) (hkl : k ≤ l) (hl : l < k + n) :
    z.nrFree l = 0 := by
  induction n generalizing k with
  | zero => omega
  | succ n ih =>
    rw [firstFree] at h
    split at h
    · by_cases heq : l = k
      · rwa [heq]
      · exact ih h (by omega) (by omega)
    · cases h

theorem rmqueue_none_empty (h : BuddyInv c 1 b) (hq : rmqueue c b.zone order = (z, none))
    (hk : order ≤ k) (hkt : k ≤ c.top) : z.freeList k = [] := by
  rw [rmqueue] at hq
  split at hq
  · obtain rfl := (Prod.mk.inj hq).1
    refine List.length_eq_zero_iff.mp ((h.core.nrFree k).symm.trans ?_)
    exact firstFree_none ‹_› hk (by omega)
  · split at hq
    · obtain ⟨-, -, hne⟩ := firstFree_spec ‹firstFree _ _ _ = some _›
      refine absurd ((h.core.nrFree _).trans ?_) hne
      rw [‹b.zone.freeList _ = []›]
      rfl
    · cases hq

variable [DecidableEq T]

theorem BuddyInv.rmqueue (h : BuddyInv c 1 b) (hq : rmqueue c b.zone order = (z, some page)) :
    BuddyInv c 1 { b with zone := z, alloc := insert (page, order) b.alloc } :=
  buddyInv_step h (a := .rmqueue order) (by rw [buddyStep, hq])

theorem BuddyInv.rmqueue_none (h : BuddyInv c 1 b)
    (hq : Skp.Mm.rmqueue c b.zone order = (z, none)) : BuddyInv c 1 { b with zone := z } :=
  buddyInv_step h (a := .rmqueue order) (by rw [buddyStep, hq])

theorem alloc_of_free (hs : buddyStep c b (.free t page order) = some b') :
    (page, order) ∈ b.alloc ∧ b'.alloc = b.alloc.erase (page, order) := by
  simp only [buddyStep] at hs
  split at hs
  · refine ⟨(‹_ ∧ _›).1, ?_⟩
    obtain rfl := Option.some.inj hs
    split
    · rfl
    · rfl
  · cases hs

theorem alloc_of_giveBack (hs : buddyStep c b (.giveBack t) = some b') : b'.alloc = b.alloc := by
  simp only [buddyStep] at hs
  split at hs
  · cases hs
  · exact Option.some.inj hs ▸ rfl

theorem alloc_of_supply {base : ℕ} (hs : buddyStep c b (.supply base) = some b') : b.alloc ⊆ b'.alloc := by
  simp only [buddyStep] at hs
  split at hs
  · split at hs
    · exact Option.some.inj hs ▸ Finset.subset_insert _ _
    · exact Option.some.inj hs ▸ Finset.subset_union_left
  · cases hs

/-- What a refill has put behind the list. -/
structure Refilled (c : BuddyParams) (b : BuddySys T) (list : List ℕ) (r : BuddySys T × List ℕ × ℕ)
    (new : List ℕ) : Prop where
  inv : BuddyInv c 1 r.1
  list : r.2.1 = list ++ new
  count : r.2.2 = new.length
  nodup : new.Nodup
  fresh : ∀ p ∈ new, ∀ k, (p, k) ∉ b.alloc
  alloc : ∀ x, x ∈ r.1.alloc ↔ x ∈ b.alloc ∨ ∃ p ∈ new, x = (p, 0)

theorem rmqueueBulk_refilled (n : ℕ) (list : List ℕ) (h : BuddyInv c 1 b) :
    ∃ new, new.length ≤ n ∧ Refilled c b list (rmqueueBulk c n b list) new := by
  induction n generalizing b list with
  | zero =>
    exact ⟨[], le_rfl, ⟨h, (List.append_nil _).symm, rfl, List.nodup_nil, (fun p hp => nomatch hp),
      fun x => by simp [rmqueueBulk]⟩⟩
  | succ n ih =>
    rw [rmqueueBulk]
    split
    · rename_i z hq
      exact ⟨[], Nat.zero_le _,
        ⟨h.rmqueue_none hq, (List.append_nil _).symm, rfl, List.nodup_nil, (fun p hp => nomatch hp),
        fun x => by simp⟩⟩
    · rename_i z page hq
      obtain ⟨new, hlen, hr⟩ := ih (list ++ [page]) (h.rmqueue hq)
      have hpage : page ∉ new := fun hp => hr.fresh page hp 0 (Finset.mem_insert_self _ _)
      refine ⟨page :: new, Nat.succ_le_succ hlen,
        ⟨hr.inv, ?_, ?_, List.nodup_cons.mpr ⟨hpage, hr.nodup⟩, ?_, fun x => ?_⟩⟩
      · show (rmqueueBulk c n _ _).2.1 = _
        rw [hr.list, List.append_assoc, List.singleton_append]
      · exact congrArg (· + 1) hr.count
      · intro p hp k hmem
        rcases List.mem_cons.mp hp with rfl | hp
        · exact h.fresh hq hmem
        · exact hr.fresh p hp k (Finset.mem_insert_of_mem hmem)
      · refine (hr.alloc x).trans ?_
        rw [Finset.mem_insert]
        simp only [List.mem_cons, exists_eq_or_imp]
        tauto

end Buddy

/-! ## The invariant -/

section Cache
variable {T : Type} {c : BuddyParams} {batch : ℕ} {s s' : CacheSys T} {t u : T} {p : ℕ}

def pending : CachePc → List ℕ
  | .bulk (some page) _ _ => [page]
  | _ => []

/-- The pages of a thread: its list, and the one `free_hot_page` is about to put in. -/
def pagesOf (tl : Option PageTls) (pc : CachePc) : List ℕ := pending pc ++ tl.elim [] PageTls.list

def cached (s : CacheSys T) (t : T) : List ℕ := pagesOf (s.tls t) (s.pc t)

theorem cached_idle {tl : PageTls} (htl : s.tls t = some tl) (hpc : s.pc t = .idle) :
    cached s t = tl.list := by
  rw [cached, htl, hpc]
  rfl

/-- The count, which `free_pages_bulk` corrects at its end, and the bound it keeps. -/
def CountOk (batch : ℕ) (tl : PageTls) : CachePc → Prop
  | .idle => tl.count = tl.list.length ∧ tl.count ≤ 3 * batch
  | .bulk page count rc => tl.count = tl.list.length + rc ∧ tl.count ≤ 3 * batch ∧
      (page ≠ none → count + rc = batch)

structure CacheInv (c : BuddyParams) (batch : ℕ) (s : CacheSys T) : Prop where
  buddy : BuddyInv c 1 s.buddy
  alloc : ∀ x, x ∈ s.buddy.alloc ↔ x ∈ s.held ∨ ∃ t, ∃ p ∈ cached s t, x = (p, 0)
  nodup : ∀ t, (cached s t).Nodup
  apart : ∀ t u p, p ∈ cached s t → p ∈ cached s u → t = u
  notHeld : ∀ t p, p ∈ cached s t → (p, 0) ∉ s.held
  count : ∀ t tl, s.tls t = some tl → CountOk batch tl (s.pc t)
  running : ∀ t, s.tls t = none → s.pc t = .idle

theorem CacheInv.setHeld {b : BuddySys T} {held : Finset (ℕ × ℕ)} (h : CacheInv c batch s)
    (hb : BuddyInv c 1 b)
    (halloc : ∀ x, x ∈ b.alloc ↔ x ∈ held ∨ ∃ t, ∃ p ∈ cached s t, x = (p, 0))
    (hheld : ∀ t p, p ∈ cached s t → (p, 0) ∉ held) :
    CacheInv c batch { s with buddy := b, held := held } :=
  ⟨hb, halloc, h.nodup, h.apart, hheld, h.count, h.running⟩

variable [DecidableEq T]

/-- One thread's list and place change, and with them what the users and the node have. -/
theorem CacheInv.set {b : BuddySys T} (h : CacheInv c batch s) (t : T) (held : Finset (ℕ × ℕ))
    (tl : Option PageTls) (pc : CachePc)
    (hb : BuddyInv c 1 b)
    (halloc : ∀ x, x ∈ b.alloc ↔ x ∈ held ∨ (∃ p ∈ pagesOf tl pc, x = (p, 0)) ∨ ∃ u, u ≠ t ∧
      ∃ p ∈ cached s u, x = (p, 0))
    (hnodup : (pagesOf tl pc).Nodup)
    (hmine : ∀ p ∈ pagesOf tl pc, (p, 0) ∉ held ∧ ∀ u, u ≠ t → p ∉ cached s u)
    (hothers : ∀ u, u ≠ t → ∀ p ∈ cached s u, (p, 0) ∉ held)
    (hcount : ∀ tl', tl = some tl' → CountOk batch tl' pc)
    (hrunning : tl = none → pc = .idle) :
    CacheInv c batch
      { buddy := b, held := held, tls := Function.update s.tls t tl,
        pc := Function.update s.pc t pc } := by
  have hself : ∀ s' : CacheSys T,
      s' = { buddy := b, held := held, tls := Function.update s.tls t tl,
             pc := Function.update s.pc t pc } →
      cached s' t = pagesOf tl pc ∧ ∀ u, u ≠ t → cached s' u = cached s u := by
    rintro s' rfl
    refine ⟨?_, fun u hu => ?_⟩
    · simp only [cached, Function.update_self]
    · simp only [cached, Function.update_of_ne hu]
  obtain ⟨hat, helse⟩ := hself _ rfl
  refine ⟨hb, fun x => ?_, fun u => ?_, fun u v p hu hv => ?_, fun u p hu => ?_, fun u tl' hu => ?_,
    fun u hu => ?_⟩
  · refine (halloc x).trans (or_congr_right ⟨?_, ?_⟩)
    · rintro (⟨p, hp, hx⟩ | ⟨u, hu, p, hp, hx⟩)
      · exact ⟨t, p, by rwa [hat], hx⟩
      · exact ⟨u, p, by rwa [helse u hu], hx⟩
    · rintro ⟨u, p, hp, hx⟩
      by_cases hu : u = t
      · subst hu
        exact Or.inl ⟨p, by rwa [hat] at hp, hx⟩
      · exact Or.inr ⟨u, hu, p, by rwa [helse u hu] at hp, hx⟩
  · by_cases hu : u = t
    · subst hu
      rwa [hat]
    · rw [helse u hu]
      exact h.nodup u
  · by_cases hut : u = t
    · by_cases hvt : v = t
      · exact hut.trans hvt.symm
      · rw [hut, hat] at hu
        rw [helse v hvt] at hv
        exact absurd hv ((hmine p hu).2 v hvt)
    · rw [helse u hut] at hu
      by_cases hvt : v = t
      · rw [hvt, hat] at hv
        exact absurd hu ((hmine p hv).2 u hut)
      · rw [helse v hvt] at hv
        exact h.apart u v p hu hv
  · by_cases hut : u = t
    · rw [hut, hat] at hu
      exact (hmine p hu).1
    · rw [helse u hut] at hu
      exact hothers u hut p hu
  · by_cases hut : u = t
    · subst hut
      simp only [Function.update_self] at hu ⊢
      exact hcount tl' hu
    · simp only [Function.update_of_ne hut] at hu ⊢
      exact h.count u tl' hu
  · by_cases hut : u = t
    · subst hut
      simp only [Function.update_self] at hu ⊢
      exact hrunning hu
    · simp only [Function.update_of_ne hut] at hu ⊢
      exact h.running u hu

theorem CacheInv.alloc_at (h : CacheInv c batch s) (t : T) (x : ℕ × ℕ) : x ∈ s.buddy.alloc ↔
    x ∈ s.held ∨ (∃ p ∈ cached s t, x = (p, 0)) ∨ ∃ u, u ≠ t ∧ ∃ p ∈ cached s u, x = (p, 0) := by
  rw [h.alloc]
  refine or_congr_right ⟨fun ⟨u, hu⟩ => ?_, ?_⟩
  · by_cases hut : u = t
    · exact Or.inl (hut ▸ hu)
    · exact Or.inr ⟨u, hut, hu⟩
  · rintro (hu | ⟨u, -, hu⟩)
    · exact ⟨t, hu⟩
    · exact ⟨u, hu⟩

/-! ## Steps -/

theorem CacheInv.refill {tl : PageTls} (h : CacheInv c batch s) (htl : s.tls t = some tl)
    (hpc : s.pc t = .idle) :
    CacheInv c batch (refill c batch s t tl).1 ∧ (refill c batch s t tl).1.tls t =
      some (refill c batch s t tl).2 ∧
      (refill c batch s t tl).1.pc t = .idle := by
  rw [Skp.Mm.refill]
  split
  · obtain ⟨new, hlen, hr⟩ := rmqueueBulk_refilled batch tl.list h.buddy
    have hcached := cached_idle htl hpc
    have hmem := h.alloc_at t
    have hcount := h.count t tl htl
    rw [hpc] at hcount
    rw [hcached] at hmem
    have hpcs : Function.update s.pc t .idle = s.pc := by rw [← hpc, Function.update_eq_self]
    have hpages : pagesOf (some { count := tl.count + (new.length : ℤ), list := tl.list ++ new })
        .idle = tl.list ++ new := rfl
    have hinv := h.set t s.held (some { count := tl.count + (new.length : ℤ), list := tl.list ++ new }) .idle
      hr.inv (fun x => ?_) ?_ (fun p hp => ?_) (fun u hu p hp => h.notHeld u p hp)
        (fun tl' htl' => ?_) fun hn => nomatch hn
    · rw [hpcs, ← hr.list, ← hr.count] at hinv
      exact ⟨hinv, Function.update_self t _ _, hpc⟩
    · rw [hr.alloc, hmem, hpages]
      simp only [List.mem_append, or_and_right, exists_or, or_assoc, or_left_comm, or_comm]
    · rw [hpages, List.nodup_append]
      refine ⟨hcached ▸ h.nodup t, hr.nodup, ?_⟩
      rintro p hp q hq rfl
      exact hr.fresh p hq 0 ((hmem _).mpr (Or.inr (Or.inl ⟨p, hp, rfl⟩)))
    · rw [hpages] at hp
      rcases List.mem_append.mp hp with hp | hp
      · rw [← hcached] at hp
        exact ⟨h.notHeld t p hp, fun u hu hpu => hu (h.apart u t p hpu hp)⟩
      · refine ⟨fun hheld => hr.fresh p hp 0 ((hmem _).mpr (Or.inl hheld)), fun u hu hpu => ?_⟩
        exact hr.fresh p hp 0 ((hmem _).mpr (Or.inr (Or.inr ⟨u, hu, p, hpu, rfl⟩)))
    · obtain rfl := Option.some.inj htl'
      refine ⟨?_, ?_⟩
      · rw [hcount.1, List.length_append]
        push_cast
        rfl
      · show tl.count + (new.length : ℤ) ≤ 3 * batch
        omega
  · exact ⟨h, htl, hpc⟩

theorem CacheInv.pop {tl : PageTls} (h : CacheInv c batch s) (htl : s.tls t = some tl)
    (hpc : s.pc t = .idle) :
    CacheInv c batch (popPage s t tl).1 := by
  rw [popPage]
  split
  · exact h
  · rename_i page list hlist
    have hcached := (cached_idle htl hpc).trans hlist
    have hmem := h.alloc_at t
    have hnodup := h.nodup t
    have hcount := h.count t tl htl
    rw [hpc] at hcount
    rw [hcached] at hmem hnodup
    obtain ⟨hpage, hlistNodup⟩ := List.nodup_cons.mp hnodup
    have hpcs : Function.update s.pc t .idle = s.pc := by rw [← hpc, Function.update_eq_self]
    have hpages : pagesOf (some { count := tl.count - 1, list := list }) .idle = list := rfl
    have hinv := h.set t (insert (page, 0) s.held) (some { count := tl.count - 1, list := list }) .idle
      h.buddy (fun x => ?_) hlistNodup (fun p hp => ?_) (fun u hu p hp => ?_)
        (fun tl' htl' => ?_) fun hn => nomatch hn
    · rw [hpcs] at hinv
      exact hinv
    · rw [hmem, hpages, Finset.mem_insert]
      simp only [List.mem_cons, exists_eq_or_imp, or_assoc, or_left_comm]
    · rw [hpages] at hp
      have hin : p ∈ cached s t := by rw [hcached]; exact List.mem_cons_of_mem page hp
      refine ⟨fun hheld => ?_, fun u hu hpu => hu (h.apart u t p hpu hin)⟩
      rcases Finset.mem_insert.mp hheld with heq | hheld
      · exact hpage ((Prod.mk.inj heq).1 ▸ hp)
      · exact h.notHeld t p hin hheld
    · intro hheld
      rcases Finset.mem_insert.mp hheld with heq | hheld
      · have hin : page ∈ cached s t := by rw [hcached]; exact List.mem_cons_self
        exact hu (h.apart u t page ((Prod.mk.inj heq).1 ▸ hp) hin)
      · exact h.notHeld u p hp hheld
    · obtain rfl := Option.some.inj htl'
      obtain ⟨hlen, hle⟩ := hcount
      rw [hlist, List.length_cons] at hlen
      push_cast at hlen
      constructor <;> simp only <;> omega

theorem CacheInv.slow {order : ℕ} (h : CacheInv c batch s) : CacheInv c batch (rmqueueSlow c s order).1 := by
  rw [rmqueueSlow]
  split
  · rename_i z hq
    exact h.setHeld (h.buddy.rmqueue_none hq) h.alloc h.notHeld
  · rename_i z page hq
    refine h.setHeld (h.buddy.rmqueue hq) (fun x => ?_) fun t p hp hheld => ?_
    · show x ∈ insert (page, order) s.buddy.alloc ↔ _
      rw [Finset.mem_insert, Finset.mem_insert, h.alloc, or_assoc]
    · rcases Finset.mem_insert.mp hheld with heq | hheld
      · refine h.buddy.fresh (k := 0) hq ?_
        rw [← (Prod.mk.inj heq).1]
        exact (h.alloc _).mpr (Or.inr ⟨t, p, hp, rfl⟩)
      · exact h.notHeld t p hp hheld

theorem CacheInv.freeBlock {page order : ℕ} {b : BuddySys T} (h : CacheInv c batch s)
    (hheld : (page, order) ∈ s.held)
    (hs : buddyStep c s.buddy (.free t page order) = some b) :
    CacheInv c batch { s with buddy := b, held := s.held.erase (page, order) } := by
  refine h.setHeld (buddyInv_step h.buddy hs) (fun x => ?_) fun u p hp hmem =>
    h.notHeld u p hp (Finset.mem_of_mem_erase hmem)
  rw [(alloc_of_free hs).2, Finset.mem_erase, Finset.mem_erase, h.alloc, and_or_left]
  refine or_congr_right ⟨fun hx => hx.2, fun hx => ⟨?_, hx⟩⟩
  -- a page in a list is not the block that is freed
  rintro rfl
  obtain ⟨u, p, hp, heq⟩ := hx
  exact h.notHeld u p hp (heq ▸ hheld)

theorem CacheInv.take {page : ℕ} {tl : PageTls} (h : CacheInv c batch s) (hheld : (page, 0) ∈ s.held)
    (htl : s.tls t = some tl) (hpc : s.pc t = .idle) (tl' : PageTls) (pc : CachePc)
    (hpages : pagesOf (some tl') pc = page :: tl.list) (hcount : CountOk batch tl' pc) :
    CacheInv c batch { s with
      held := s.held.erase (page, 0)
      tls := Function.update s.tls t (some tl')
      pc := Function.update s.pc t pc } := by
  have hcached := cached_idle htl hpc
  have hmem := h.alloc_at t
  rw [hcached] at hmem
  have hnot : ∀ u, page ∉ cached s u := fun u hp => h.notHeld u page hp hheld
  refine h.set t (s.held.erase (page, 0)) (some tl') pc h.buddy (fun x => ?_) ?_ (fun p hp => ?_)
    (fun u hu p hp hmem => h.notHeld u p hp (Finset.mem_of_mem_erase hmem))
      (fun tl'' heq => Option.some.inj heq ▸ hcount) fun hn => nomatch hn
  · rw [hmem, hpages, Finset.mem_erase]
    simp only [List.mem_cons, exists_eq_or_imp]
    by_cases hx : x = (page, 0)
    · subst hx
      exact iff_of_true (Or.inl hheld) (Or.inr (Or.inl (Or.inl rfl)))
    · simp only [hx, ne_eq, not_false_eq_true, true_and, false_or]
  · rw [hpages, List.nodup_cons]
    exact ⟨hcached ▸ hnot t, hcached ▸ h.nodup t⟩
  · rw [hpages] at hp
    rcases List.mem_cons.mp hp with rfl | hp
    · exact ⟨Finset.notMem_erase _ _, fun u _ => hnot u⟩
    · rw [← hcached] at hp
      exact ⟨fun hmem => h.notHeld t p hp (Finset.mem_of_mem_erase hmem),
        fun u hu hpu => hu (h.apart u t p hpu hp)⟩

theorem CacheInv.rearrange (h : CacheInv c batch s) (tl' : PageTls) (pc : CachePc)
    (hpages : (pagesOf (some tl') pc) = cached s t)
    (hcount : CountOk batch tl' pc) :
    CacheInv c batch { s with
      tls := Function.update s.tls t (some tl')
      pc := Function.update s.pc t pc } := by
  refine h.set t s.held (some tl') pc h.buddy (fun x => ?_) ?_ (fun p hp => ?_)
    (fun u hu p hp => h.notHeld u p hp)
    (fun tl'' heq => Option.some.inj heq ▸ hcount) fun hn => nomatch hn
  · rw [hpages]
    exact h.alloc_at t x
  · rw [hpages]
    exact h.nodup t
  · rw [hpages] at hp
    exact ⟨h.notHeld t p hp, fun u hu hpu => hu (h.apart u t p hpu hp)⟩

theorem CacheInv.finish {tl : PageTls} {page : Option ℕ} {count : ℤ} {rc : ℕ}
    (h : CacheInv c batch s) (hbatch : 0 < batch)
    (htl : s.tls t = some tl) (hpc : s.pc t = .bulk page count rc) (hend : tl.list = [] ∨ count = 0) :
    CacheInv c batch (bulkEnd s t tl page rc) := by
  have hcount := h.count t tl htl
  rw [hpc] at hcount
  obtain ⟨hlen, hle, hgo⟩ := hcount
  have hcached : cached s t = pagesOf (some tl) (.bulk page count rc) := by rw [cached, htl, hpc]
  cases page with
  | none =>
    refine h.rearrange { tl with count := tl.count - rc } .idle (hcached ▸ rfl) ⟨?_, ?_⟩ <;>
      simp only <;> omega
  | some page =>
    have hgone := hgo (by simp)
    have hroom : tl.list.length = 0 ∨ 0 < (rc : ℤ) := by
      rcases hend with hnil | hzero
      · exact Or.inl (by rw [hnil]; rfl)
      · exact Or.inr (by omega)
    refine h.rearrange { count := tl.count - rc + 1, list := page :: tl.list } .idle (hcached ▸ rfl) ⟨?_, ?_⟩
    · simp only [List.length_cons]
      push_cast
      omega
    · simp only
      rcases hroom with hroom | hroom <;> omega

theorem CacheInv.bulkFree {tl : PageTls} {page : Option ℕ} {count : ℤ} {rc last : ℕ} {b : BuddySys T}
    (h : CacheInv c batch s)
    (htl : s.tls t = some tl) (hpc : s.pc t = .bulk page count rc) (hlast : tl.list.getLast? = some last)
    (hs : buddyStep c s.buddy (.free t last 0) = some b) :
    CacheInv c batch { s with
      buddy := b
      tls := Function.update s.tls t (some { tl with list := tl.list.dropLast })
      pc := Function.update s.pc t (.bulk page (count - 1) (rc + 1)) } := by
  obtain ⟨list, hlist⟩ := List.getLast?_eq_some_iff.mp hlast
  have hdrop : tl.list.dropLast = list := by rw [hlist, List.dropLast_concat]
  have hcount := h.count t tl htl
  rw [hpc] at hcount
  obtain ⟨hlen, hle, hgo⟩ := hcount
  have hcached : cached s t = pagesOf (some { tl with list := list })
      (.bulk page (count - 1) (rc + 1)) ++ [last] := by
    rw [cached, htl, hpc]
    show pending (.bulk page count rc) ++ tl.list =
        (pending (.bulk page (count - 1) (rc + 1)) ++ list) ++ [last]
    rw [hlist, List.append_assoc]
    cases page <;> rfl
  have hmem := h.alloc_at t
  have hnodup := h.nodup t
  rw [hcached] at hmem hnodup
  obtain ⟨hpnodup, -, hlastNot⟩ := List.nodup_append.mp hnodup
  have hin : last ∈ cached s t := by rw [hcached]; simp
  rw [hdrop]
  refine h.set t s.held (some { tl with list := list }) (.bulk page (count - 1) (rc + 1))
    (buddyInv_step h.buddy hs) (fun x => ?_) hpnodup
    (fun p hp => ?_) (fun u hu p hp => h.notHeld u p hp) (fun tl'' heq => ?_) fun hn => nomatch hn
  · rw [(alloc_of_free hs).2, Finset.mem_erase, hmem]
    by_cases hx : x = (last, 0)
    · subst hx
      refine iff_of_false (fun hx => hx.1 rfl) ?_
      rintro (hheld | ⟨p, hp, heq⟩ | ⟨u, hu, p, hp, heq⟩)
      · exact h.notHeld t last hin hheld
      · exact hlastNot p hp last List.mem_cons_self (Prod.mk.inj heq).1.symm
      · exact hu (h.apart u t last ((Prod.mk.inj heq).1 ▸ hp) hin)
    · simp only [List.mem_append, List.mem_singleton, or_and_right, exists_or, exists_eq_left, hx,
        or_false, ne_eq, not_false_eq_true, true_and]
  · have hpin : p ∈ cached s t := by rw [hcached]; exact List.mem_append_left _ hp
    exact ⟨h.notHeld t p hpin, fun u hu hpu => hu (h.apart u t p hpu hpin)⟩
  · obtain rfl := Option.some.inj heq
    rw [hlist, List.length_append, List.length_singleton] at hlen
    push_cast at hlen
    refine ⟨?_, hle, fun hp => ?_⟩
    · push_cast
      omega
    · have := hgo hp
      push_cast
      omega

theorem CacheInv.step {a : CacheAct T} (h : CacheInv c batch s) (hbatch : 0 < batch)
    (hs : cacheStep c batch s a = some s') :
    CacheInv c batch s' := by
  cases a with
  | acquire t =>
    simp only [cacheStep] at hs
    split at hs
    · rename_i htl hpc
      obtain rfl := Option.some.inj hs
      have hnil : cached s t = [] := by rw [cached, htl, hpc]; rfl
      have hinv := h.rearrange (t := t) { count := 0, list := [] } .idle (hnil ▸ rfl) ⟨rfl, by simp⟩
      rwa [← hpc, Function.update_eq_self] at hinv
    · exact nomatch hs
  | alloc t order =>
    simp only [cacheStep] at hs
    split at hs
    · rename_i hpc
      obtain rfl := Option.some.inj hs
      unfold bufferedRmqueue
      split
      · rename_i tl htl
        obtain ⟨hinv, htl', hpc'⟩ := h.refill htl hpc
        exact hinv.pop htl' hpc'
      · exact h.slow
    · exact nomatch hs
  | freeOk t page order =>
    simp only [cacheStep] at hs
    split at hs
    · split at hs
      · obtain ⟨b, hb, rfl⟩ := Option.map_eq_some_iff.mp hs
        exact h.freeBlock ‹_› hb
      · exact nomatch hs
    · exact nomatch hs
  | freeHot t page =>
    simp only [cacheStep] at hs
    split at hs
    · split at hs
      · obtain ⟨b, hb, rfl⟩ := Option.map_eq_some_iff.mp hs
        exact h.freeBlock ‹_› hb
      · rename_i hheld _ _ tl htl hpc
        obtain rfl := Option.some.inj hs
        have hcount := h.count t tl htl
        rw [hpc] at hcount
        obtain ⟨hlen, hle⟩ := hcount
        split
        · have hinv :=
            h.take hheld htl hpc tl
              (.bulk (some page) batch 0) rfl ⟨by simp [hlen], hle, fun _ => by simp⟩
          rwa [← htl, Function.update_eq_self] at hinv
        · refine h.take hheld htl hpc { count := tl.count - (0 : ℕ) + 1, list := page :: tl.list }
            .idle rfl ⟨?_, ?_⟩
          · simp only [List.length_cons]
            push_cast
            omega
          · simp only
            omega
      · exact nomatch hs
    · exact nomatch hs
  | reclaim t =>
    simp only [cacheStep] at hs
    split at hs
    · rename_i tl htl hpc
      obtain rfl := Option.some.inj hs
      have hcount := h.count t tl htl
      rw [hpc] at hcount
      have hinv := h.rearrange (t := t) tl (.bulk none tl.count 0) (cached_idle htl hpc).symm
        ⟨by simp [hcount.1], hcount.2, fun hn => absurd rfl hn⟩
      rwa [← htl, Function.update_eq_self] at hinv
    · exact nomatch hs
  | bulk t =>
    simp only [cacheStep] at hs
    split at hs
    · rename_i tl page count rc htl hpc
      split at hs
      · obtain rfl := Option.some.inj hs
        exact h.finish hbatch htl hpc (Or.inl (List.getLast?_eq_none_iff.mp ‹_›))
      · split at hs
        · obtain rfl := Option.some.inj hs
          exact h.finish hbatch htl hpc (Or.inr ‹_›)
        · obtain ⟨b, hb, rfl⟩ := Option.map_eq_some_iff.mp hs
          exact h.bulkFree htl hpc ‹_› hb
    · exact nomatch hs
  | giveBack t =>
    obtain ⟨b, hb, rfl⟩ := Option.map_eq_some_iff.mp hs
    refine h.setHeld (buddyInv_step h.buddy hb) (fun x => ?_) h.notHeld
    rw [alloc_of_giveBack hb]
    exact h.alloc x
  | supply base =>
    obtain ⟨b, hb, rfl⟩ := Option.map_eq_some_iff.mp hs
    have hsub := alloc_of_supply hb
    refine h.setHeld (buddyInv_step h.buddy hb) (fun x => ?_) fun t p hp hmem => ?_
    · rw [Finset.mem_union, Finset.mem_sdiff, or_right_comm, ← h.alloc]
      refine ⟨fun hx => ?_, fun hx => hx.elim (fun hx => hsub hx) fun hx => hx.1⟩
      by_cases hold : x ∈ s.buddy.alloc
      · exact Or.inl hold
      · exact Or.inr ⟨hx, hold⟩
    · rcases Finset.mem_union.mp hmem with hmem | hmem
      · exact h.notHeld t p hp hmem
      · exact (Finset.mem_sdiff.mp hmem).2 ((h.alloc _).mpr (Or.inr ⟨t, p, hp, rfl⟩))

/-! ## Runs -/

omit [DecidableEq T] in
theorem cacheInv_init (c : BuddyParams) (batch : ℕ) : CacheInv c batch (cacheInit : CacheSys T) where
  buddy := buddyInv_init
  alloc := fun x => by simp [cacheInit, buddyInit, cached, pagesOf, pending]
  nodup := fun t => List.nodup_nil
  apart := fun t u p hp => nomatch hp
  notHeld := fun t p hp => nomatch hp
  count := fun t tl htl => nomatch htl
  running := fun t _ => rfl

theorem rmqueueBulk_empty {b : BuddySys T} {k : ℕ} (h : BuddyInv c 1 b) (hbatch : 0 < batch)
    (hnil : (rmqueueBulk c batch b []).2.1 = []) (hkt : k ≤ c.top) :
    (rmqueueBulk c batch b []).1.zone.freeList k = [] := by
  obtain ⟨n, rfl⟩ := Nat.exists_eq_succ_of_ne_zero hbatch.ne'
  rw [rmqueueBulk] at hnil ⊢
  split
  · exact rmqueue_none_empty h ‹_› (Nat.zero_le _) hkt
  · rename_i z page hq
    rw [hq] at hnil
    obtain ⟨new, -, hr⟩ := rmqueueBulk_refilled n ([] ++ [page]) (h.rmqueue hq)
    have hlist : (rmqueueBulk c n { b with zone := z, alloc := insert (page, 0) b.alloc }
        ([] ++ [page])).2.1 = [] := hnil
    rw [hr.list] at hlist
    exact absurd hlist (by simp)

/-- What a caller of `buffered_rmqueue` can rely on. -/
structure AllocOk (c : BuddyParams) (batch : ℕ) (s : CacheSys T) (t : T) (order : ℕ) : Prop where
  given : ∀ page, (bufferedRmqueue c batch s t order).2 = some page →
    (page, order) ∉ s.held ∧ (bufferedRmqueue c batch s t order).1.held = insert (page, order) s.held
  /-- It fails only when the node has no free block that is large enough. -/
  fails : (bufferedRmqueue c batch s t order).2 = none →
    ∀ k, order ≤ k → k ≤ c.top → (bufferedRmqueue c batch s t order).1.buddy.zone.freeList k = []

theorem CacheInv.alloc_ok {order : ℕ} (h : CacheInv c batch s) (hbatch : 0 < batch)
    (hpc : s.pc t = .idle) : AllocOk c batch s t order := by
  have hslow : (∀ page, (rmqueueSlow c s order).2 = some page → (page, order) ∉ s.held ∧
      (rmqueueSlow c s order).1.held = insert (page, order) s.held) ∧
      ((rmqueueSlow c s order).2 = none → ∀ k, order ≤ k → k ≤ c.top →
        (rmqueueSlow c s order).1.buddy.zone.freeList k = []) := by
    rw [rmqueueSlow]
    split
    · exact ⟨fun page hp => (nomatch hp), fun _ k hk hkt => rmqueue_none_empty h.buddy ‹_› hk hkt⟩
    · refine ⟨fun page hp => ?_, fun hn => nomatch hn⟩
      obtain rfl := Option.some.inj hp
      exact ⟨fun hheld => h.buddy.fresh ‹_› ((h.alloc _).mpr (Or.inl hheld)), rfl⟩
  constructor
  · intro page
    unfold bufferedRmqueue
    split
    · rename_i tl htl
      obtain ⟨hinv, htl', hpc'⟩ := h.refill htl hpc
      have hheld : (Skp.Mm.refill c batch s t tl).1.held = s.held := by
        rw [Skp.Mm.refill]
        split <;> rfl
      rw [popPage]
      split
      · exact fun hp => nomatch hp
      · rename_i head list hlist
        intro hp
        obtain rfl := Option.some.inj hp
        refine ⟨fun hmem => hinv.notHeld t head ?_ (hheld ▸ hmem), by rw [hheld]⟩
        rw [cached_idle htl' hpc', hlist]
        exact List.mem_cons_self
    · exact hslow.1 page
  · unfold bufferedRmqueue
    split
    · rename_i tl htl
      have hcount := h.count t tl htl
      rw [hpc] at hcount
      rw [popPage]
      split
      · rename_i hlist
        intro _ k _ hkt
        revert hlist
        rw [Skp.Mm.refill]
        split
        · intro hlist
          obtain ⟨new, -, hr⟩ := rmqueueBulk_refilled batch tl.list h.buddy
          have hnil : tl.list = [] := by
            have hlist' : (rmqueueBulk c batch s.buddy tl.list).2.1 = [] := hlist
            rw [hr.list] at hlist'
            exact (List.append_eq_nil_iff.mp hlist').1
          simp only [hnil] at hlist ⊢
          exact rmqueueBulk_empty h.buddy hbatch hlist hkt
        · intro hlist
          have hlen := hcount.1
          rw [hlist] at hlen
          simp only [List.length_nil, Nat.cast_zero] at hlen
          omega
      · exact fun hn => nomatch hn
    · exact hslow.2

/-- A page is in a free block, in a block some user holds, or in a thread's list. -/
inductive PlacedIn (s : CacheSys T) (q : ℕ) : ℕ × ℕ → Option T → Prop where
  | free (b : ℕ × ℕ) : b.1 ∈ s.buddy.zone.freeList b.2 → q ∈ span b → PlacedIn s q b none
  | held (b : ℕ × ℕ) : b ∈ s.held → q ∈ span b → PlacedIn s q b none
  | cached (t : T) : q ∈ cached s t → PlacedIn s q (q, 0) (some t)

structure CacheOk (c : BuddyParams) (batch : ℕ) (s : CacheSys T) : Prop where
  node : BuddyOk c s.buddy
  /-- Every page that the node has got and does not keep for itself is somewhere, and in one place only. -/
  placed : ∀ q, q ∈ supplied c s.buddy → s.buddy.zone.reserved q = false → ∃ b o, PlacedIn s q b o
  once : ∀ q b o b' o', PlacedIn s q b o → PlacedIn s q b' o' → b = b' ∧ o = o'
  notBoth : ∀ b, b ∈ s.held → b.1 ∉ s.buddy.zone.freeList b.2
  lists : ∀ t, (cached s t).Nodup
  count : ∀ t tl, s.tls t = some tl → s.pc t = .idle → tl.count = tl.list.length ∧ tl.count ≤ 3 * batch
  alloc : ∀ t order, s.pc t = .idle → AllocOk c batch s t order

theorem CacheInv.ok (h : CacheInv c batch s) (hbatch : 0 < batch) : CacheOk c batch s := by
  have hnode := buddyInv_ok h.buddy
  have hblock : ∀ q b o, PlacedIn s q b o → IsBlock s.buddy b ∧ q ∈ span b := by
    rintro q b o (⟨b, hb, hq⟩ | ⟨b, hb, hq⟩ | ⟨t, ht⟩)
    · exact ⟨Or.inr hb, hq⟩
    · exact ⟨Or.inl ((h.alloc _).mpr (Or.inl hb)), hq⟩
    · exact ⟨Or.inl ((h.alloc _).mpr (Or.inr ⟨t, q, ht, rfl⟩)), start_mem_span (q, 0)⟩
  have hcachedFree : ∀ t q, q ∈ Skp.Mm.cached s t → q ∉ s.buddy.zone.freeList 0 := fun t q hq =>
    hnode.apart (q, 0) ((h.alloc _).mpr (Or.inr ⟨t, q, hq, rfl⟩))
  refine ⟨hnode, fun q hq hr => ?_, fun q b o b' o' hb hb' => ?_,
    fun b hb => hnode.apart b ((h.alloc b).mpr (Or.inl hb)), h.nodup,
    fun t tl htl hpc => ?_, fun t order hpc => h.alloc_ok hbatch hpc⟩
  · rcases hnode.cover q hq with hres | ⟨b, hb, hqb⟩
    · rw [hr] at hres
      exact nomatch hres
    · rcases hb with hb | hb
      · rcases (h.alloc b).mp hb with hb | ⟨t, p, hp, rfl⟩
        · exact ⟨b, none, .held b hb hqb⟩
        · have hpq : q = p := by
            have hlt : q < p + 2 ^ 0 := hqb.2
            have hle : p ≤ q := hqb.1
            omega
          exact ⟨(q, 0), some t, .cached t (hpq ▸ hp)⟩
      · exact ⟨b, none, .free b hb hqb⟩
  · have hsame : b = b' :=
      hnode.disjoint b b' q (hblock q b o hb).1 (hblock q b' o' hb').1 (hblock q b o hb).2
        (hblock q b' o' hb').2
    refine ⟨hsame, ?_⟩
    subst hsame
    cases hb with
    | free _ hf _ =>
      cases hb' with
      | free _ _ _ => rfl
      | held _ _ _ => rfl
      | cached u hu => exact absurd hf (hcachedFree u q hu)
    | held _ hh _ =>
      cases hb' with
      | free _ _ _ => rfl
      | held _ _ _ => rfl
      | cached u hu => exact absurd hh (h.notHeld u q hu)
    | cached t ht =>
      cases hb' with
      | free _ hf _ => exact absurd hf (hcachedFree t q ht)
      | held _ hh _ => exact absurd hh (h.notHeld t q ht)
      | cached u hu => exact congrArg some (h.apart t u q ht hu)
  · have hcount := h.count t tl htl
    rwa [hpc] at hcount

/-- In every run, whatever the threads do in whatever order, every page is in one place, the counts
of the lists are right and bounded, and an allocation fails only when the node has nothing large
enough. -/
theorem page_cache_ok (c : BuddyParams) (batch : ℕ) (hbatch : 0 < batch) (as : List (CacheAct T))
    (s : CacheSys T)
    (hrun : runActs (cacheStep c batch) cacheInit as = some s) : CacheOk c batch s :=
  (run_invariant (fun _ _ _ h _ hs => CacheInv.step h hbatch hs) as cacheInit s
    (cacheInv_init c batch) (runMeets_trivial as cacheInit)
    hrun).ok hbatch

/-- A refill of two pages, and a list that grows too long and gives a page back. -/
def refillAndDrain : List (CacheAct Unit) :=
  [.supply 4, .acquire (), .freeOk () 7 0, .freeOk () 6 0, .freeOk () 5 0, .alloc () 0, .alloc () 0,
    .alloc () 0, .freeHot () 5, .freeHot () 7,
    .freeHot () 6]

theorem page_cache_ok_witness :
    ∃ s, runActs (cacheStep smallNode 2) cacheInit refillAndDrain = some s ∧ s.held = ∅ ∧
    CacheOk smallNode 2 s := by
  obtain ⟨s, hs, hheld⟩ : ∃ s, runActs (cacheStep smallNode 2) cacheInit refillAndDrain = some s ∧
    s.held = ∅ := ⟨_, rfl, by decide⟩
  exact ⟨s, hs, hheld, page_cache_ok smallNode 2 (by decide) refillAndDrain s hs⟩

end Cache

end Skp.Mm
