import Skp.Mm.SlabRuns
import Skp.Foundations.WordLinks

/-! # The links in the free objects

The lists of a slab cache are linked through the first words of their objects. `slabLinks` are the
words that a step of the cache writes; after them the lists of the new state are linked if those of
the old one were, and no object that the user has is written. -/
namespace Skp.Mm
set_option autoImplicit false
open Skp.Foundations

variable {T : Type}

/-- The page that a step gets from the page allocator. -/
def newPage : SlabAct T → Option ℕ
  | .loadNew _ page => some page
  | .newPartial _ page => some page
  | .newDiscard page => some page
  | _ => none

/-- `for_each_object`. -/
def pageObjs (c : CacheParams) (page : ℕ) : List Obj := (List.range c.objects).map fun i => (page, i)

def flushLinks (s : SlabState T) (fl : TlsFreelist) : List (Obj × Option Obj) :=
  match fl.page with
  | none => []
  | some page => if fl.nr = 0 then [] else joinWrites fl.objs (s.freelist page)

def tlsCacheLinks (s : SlabState T) (fl : TlsFreelist) (o : Obj) : List (Obj × Option Obj) :=
  if fl.page ≠ some o.1 ∨ tlsFreelistCap ≤ fl.nr then flushLinks s fl ++ [(o, none)] else [(o, fl.objs.head?)]

section Threads

/-- The links that a step writes: `init_slab` links the objects of a new page, a free puts its
object in front of a list, `freelist_free` a list in front of `freelist`. -/
def slabLinks (c : CacheParams) (s : SlabState T) : SlabAct T → List (Obj × Option Obj)
  | .deactivate t _ =>
      match loadedPage c s t with
      | none => []
      | some page => joinWrites (s.locklessFreelist page) (s.freelist page)
  | .loadNew _ page => chainWrites (pageObjs c page)
  | .newPartial _ page => chainWrites (pageObjs c page)
  | .newDiscard page => chainWrites (pageObjs c page)
  | .slabFree t o _ =>
      if c.lockless then
        if s.tlsPage t = some o.1 then [(o, (s.locklessFreelist o.1).head?)]
          else tlsCacheLinks s (s.tlsFree t) o
      else [(o, (s.freelist o.1).head?)]
  | .directFree o _ => [(o, (s.freelist o.1).head?)]
  | .tlsFlush t _ => flushLinks s (s.tlsFree t)
  | .poolFree o => [(o, s.pool.head?)]
  | .chainNext t _ =>
      match s.chain t with
      | [] => []
      | o :: _ => tlsCacheLinks s (s.chainFree t) o
  | .chainEnd t _ => flushLinks s (s.chainFree t)
  | _ => []

/-! ## Lists of the state -/

variable {W : Type} {enc : Option Obj → W} {word : Obj → W} {c : CacheParams} {s s' : SlabState T}
    {l objs : List Obj} {t : T}
  {o : Obj} {p : ℕ} {f : Option ℕ}

/-- Every list of free objects is linked. -/
def Threaded (enc : Option Obj → W) (word : Obj → W) (s : SlabState T) : Prop :=
  ∀ pl : Place T, pl ≠ .user → Linked enc word (objsAt s [] pl)

theorem threaded_init (enc : Option Obj → W) (word : Obj → W) :
    Threaded enc word (slabInit : SlabState T) := by
  intro pl _
  cases pl <;> trivial

theorem Threaded.congr {word' : Obj → W} (h : Threaded enc word s)
    (heq : ∀ pl : Place T, pl ≠ .user → ∀ o ∈ objsAt s [] pl, word' o = word o) : Threaded enc word' s :=
  fun pl hpl => (h pl hpl).congr (heq pl hpl)

theorem Threaded.shorten (h : Threaded enc word s)
    (hsub : ∀ pl : Place T, pl ≠ .user → ∃ pl', pl' ≠ .user ∧ objsAt s' [] pl <:+ objsAt s [] pl') :
    Threaded enc word s' := by
  intro pl hpl
  obtain ⟨pl', hpl', hsuffix⟩ := hsub pl hpl
  exact (h pl' hpl').suffix hsuffix

/-- A linked list `objs` from the place `src` goes in front of a page's free list. -/
theorem Threaded.join (h : Threaded enc word s) (src : Place T) (hl : Linked enc word objs)
    (hn : (objs ++ s.freelist p).Nodup)
    (hobjs : ∀ pl : Place T, pl ≠ .user → pl ≠ src → ∀ o ∈ objs, o ∉ objsAt s [] pl)
    (hlists : ∀ pl : Place T, pl ≠ .user → objsAt s' [] pl = [] ∨
      (pl = .free p ∧ objsAt s' [] pl = objs ++ s.freelist p) ∨
      (pl ≠ src ∧ objsAt s' [] pl = objsAt s [] pl)) :
    Threaded enc (applyWrites enc word (joinWrites objs (s.freelist p))) s' := by
  intro pl hpl
  rcases hlists pl hpl with hnil | ⟨-, hjoin⟩ | ⟨hsrc, hsame⟩
  · rw [hnil]
    trivial
  · rw [hjoin]
    exact hl.join (h (.free p) (fun heq => by cases heq)) hn
  · rw [hsame]
    apply (h pl hpl).applyWrites
    intro w hw
    exact hobjs pl hpl hsrc w.1 (mem_joinWrites hw)

/-- Where the lists are after `__slab_free`, whether the page goes or stays. -/
theorem slabFree_lists (c : CacheParams) (s : SlabState T) (p : ℕ) (objs : List Obj) (nr : ℕ)
    (r : DiscardReads) (pl : Place T)
    (hpl : pl ≠ .user) : objsAt (slabFree c s p objs nr r) [] pl = [] ∨
      (pl = .free p ∧ objsAt (slabFree c s p objs nr r) [] pl = objs ++ s.freelist p) ∨
      (pl ≠ .limbo ∧ objsAt (slabFree c s p objs nr r) [] pl = objsAt s [] pl) := by
  cases pl with
  | user => exact absurd rfl hpl
  | limbo => exact .inl rfl
  | free q =>
    by_cases hq : q = p
    · subst hq
      simp only [slabFree]
      split_ifs <;> simp [objsAt, freelistFree, discardSlab, removePartial, removeFull, addPartialTail]
    · right
      right
      refine ⟨by simp, ?_⟩
      simp only [slabFree]
      split_ifs <;> simp [objsAt, freelistFree, discardSlab, removePartial, removeFull, addPartialTail, hq]
  | lockless q =>
    by_cases hq : q = p
    · subst hq
      simp only [slabFree]
      split_ifs <;> simp [objsAt, freelistFree, discardSlab, removePartial, removeFull, addPartialTail]
    · right
      right
      refine ⟨by simp, ?_⟩
      simp only [slabFree]
      split_ifs <;> simp [objsAt, freelistFree, discardSlab, removePartial, removeFull, addPartialTail, hq]
  | tls t =>
    right
    right
    refine ⟨by simp, ?_⟩
    simp only [slabFree]
    split_ifs <;> rfl
  | pool =>
    right
    right
    refine ⟨by simp, ?_⟩
    simp only [slabFree]
    split_ifs <;> rfl
  | chain t =>
    right
    right
    refine ⟨by simp, ?_⟩
    simp only [slabFree]
    split_ifs <;> rfl
  | chainFree t =>
    right
    right
    refine ⟨by simp, ?_⟩
    simp only [slabFree]
    split_ifs <;> rfl

theorem SlabInv.limbo_apart (h : SlabInv c (objs ++ l) f s) (pl : Place T) (hpl : pl ≠ .limbo) :
    ∀ o ∈ objs, o ∉ objsAt s [] pl := by
  intro o ho hin
  have hlimbo : o ∈ objsAt s (objs ++ l) (.limbo : Place T) := List.mem_append_left _ ho
  have hsame : objsAt s (objs ++ l) pl = objsAt s [] pl := by
    cases pl <;> first | rfl | exact absurd rfl hpl
  exact hpl (h.placed.disjoint pl .limbo o (hsame ▸ hin) hlimbo)

theorem SlabInv.limbo_nodup (h : SlabInv c (objs ++ l) f s) (p : ℕ) : (objs ++ s.freelist p).Nodup := by
  rw [List.nodup_append]
  refine ⟨(List.nodup_append.mp (h.placed.nodup .limbo)).1, h.placed.nodup (.free p), ?_⟩
  rintro o ho _ hfree rfl
  exact h.limbo_apart (.free p) (by simp) o ho hfree

theorem Threaded.slabFree (hth : Threaded enc word s) (h : SlabInv c (objs ++ l) f s)
    (hl : Linked enc word objs) (p nr : ℕ)
    (r : DiscardReads) :
    Threaded enc (applyWrites enc word (joinWrites objs (s.freelist p))) (slabFree c s p objs nr r) := by
  apply hth.join .limbo hl (h.limbo_nodup p)
  · intro pl _ hlimbo
    exact h.limbo_apart pl hlimbo
  · exact slabFree_lists c s p objs nr r

theorem Threaded.flush (hth : Threaded enc word s) {fl : TlsFreelist} (h : SlabInv c (fl.objs ++ l) none s)
    (hl : Linked enc word fl.objs) (r : DiscardReads) :
    Threaded enc (applyWrites enc word (flushLinks s fl)) (flushFreelist c s fl r) := by
  rw [flushLinks, flushFreelist]
  cases fl.page with
  | none => exact hth
  | some page =>
    by_cases hnr : fl.nr = 0
    · simp only [if_pos hnr]
      exact hth
    · simp only [if_neg hnr]
      exact hth.slabFree h hl page fl.nr r

theorem mem_flushLinks {fl : TlsFreelist} {w : Obj × Option Obj} (hw : w ∈ flushLinks s fl) :
    w.1 ∈ fl.objs := by
  rw [flushLinks] at hw
  cases hpage : fl.page with
  | none => simp [hpage] at hw
  | some page =>
    simp only [hpage] at hw
    split at hw
    · cases hw
    · exact mem_joinWrites hw

theorem Threaded.tlsCache (hth : Threaded enc word s) {fl : TlsFreelist}
    (h : SlabInv c (fl.objs ++ o :: l) none s)
    (hfl : TlsOk fl) (hl : Linked enc word fl.objs) (r : DiscardReads) :
    Threaded enc (applyWrites enc word (tlsCacheLinks s fl o)) (tlsCache c s fl o r).1 ∧
      Linked enc (applyWrites enc word (tlsCacheLinks s fl o)) (tlsCache c s fl o r).2.objs := by
  have hperm : SlabInv c (o :: (fl.objs ++ l)) none s := h.perm List.perm_middle
  have hout : o ∉ fl.objs := by
    intro ho
    exact (List.nodup_cons.mp (hperm.placed.nodup .limbo)).1 (List.mem_append_left _ ho)
  rw [tlsCacheLinks, Mm.tlsCache]
  split
  · -- the flushed state has `o` in limbo still, so its word is on no list
    have hflush : SlabInv c ([o] ++ l) none (flushFreelist c s fl r) := h.flushFreelist hfl r
    have hthread := hth.flush h hl r
    have happly : applyWrites enc word (flushLinks s fl ++ [(o, none)]) =
        Function.update (applyWrites enc word (flushLinks s fl)) o (enc none) := by
      simp [applyWrites, List.foldl_append]
    rw [happly]
    refine ⟨fun pl hpl => (hthread pl hpl).update ?_, Function.update_self .., trivial⟩
    by_cases hlimbo : pl = .limbo
    · subst hlimbo
      exact List.not_mem_nil
    · exact hflush.limbo_apart pl hlimbo o (List.mem_singleton_self o)
  · refine ⟨fun pl hpl => (hth pl hpl).update ?_, hl.cons hout⟩
    by_cases hlimbo : pl = .limbo
    · subst hlimbo
      exact List.not_mem_nil
    · have hone : SlabInv c ([o] ++ (fl.objs ++ l)) none s := hperm
      exact hone.limbo_apart pl hlimbo o (List.mem_singleton_self o)

end Threads

end Skp.Mm
