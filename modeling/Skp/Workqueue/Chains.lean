import Skp.Workqueue.Layout

/-! # Groups of linked entries and the stages of tickets

A barrier is tied to the queueing it waits for: it stands behind that work in an unbroken group of LINKED
entries, or in front of the scheduled works of the worker that executes it, or the queueing is over. -/
namespace Skp.Workqueue
set_option autoImplicit false
open Skp.Foundations

variable {P Q G W K T : Type}

/-- `y` is a barrier of the group of `x`. -/
def Core.same (c : Core P Q G W K T) (x y : Item W T) : Prop := y.isBarrier = true ∧ c.chain y = c.chain x

/-- A barrier on the list `pl` that relies on the entry before it: its queueing is not over and is not what
the list's worker executes. On a delayed list every barrier does. -/
def Core.needs (c : Core P Q G W K T) (pl : Place P Q K) (y : Item W T) : Prop :=
  y.isBarrier = true ∧
    match pl with
    | .delayed _ => True
    | .worklist _ => c.over (c.chain y) = false
    | .scheduled k => c.over (c.chain y) = false ∧ ∀ r, c.curr k = some r → r.ticket ≠ c.chain y

def Core.linkage (c : Core P Q G W K T) (pl : Place P Q K) : Option (Item W T) → Option (Item W T) → Prop :=
  Link c.linked c.same (c.needs pl)

structure Chained (c : Core P Q G W K T) : Prop where
  path : ∀ pl, ListPath (c.linkage pl) none (c.lists pl) none
  running_over : ∀ k r, c.curr k = some r → r.item.isBarrier = true → c.over r.chain = true

/-- The function of the work has been called. -/
def Stage.isStarted {W T K : Type} : Stage W T K → Bool
  | .running _ => true
  | .finished => true
  | _ => false

structure Staged (c : Core P Q G W K T) : Prop where
  listed : ∀ x pl, x ∈ c.lists pl → c.stage (c.ticket x) = .listed x
  running : ∀ k r, c.curr k = some r → c.stage r.ticket = .running k
  fresh : ∀ n, c.next ≤ n → c.stage n = .unused
  calls_le : ∀ n, c.calls n ≤ 1
  calls_zero : ∀ n, (c.stage n).isStarted = false → c.calls n = 0

structure CoreInv (cfg : WqConfig P Q G K) (c : Core P Q G W K T) : Prop where
  layout : Layout cfg c
  chained : Chained c
  staged : Staged c

theorem coreInv_init (cfg : WqConfig P Q G K) {c : Core P Q G W K T} (hl : ∀ pl, c.lists pl = [])
    (hf : ∀ x, (c.flags x).data = .none) (hc : ∀ k, c.curr k = none) (hs : ∀ n, c.stage n = .unused)
    (hn : ∀ n, c.calls n = 0) : CoreInv cfg c where
  layout := layout_init cfg hl hf hc
  chained :=
    { path := fun pl => by
        rw [hl]
        exact link_of_gap (by simp) (by simp)
      running_over := fun k r h => by simp [hc] at h }
  staged :=
    { listed := fun x pl h => by simp [hl] at h
      running := fun k r h => by simp [hc] at h
      fresh := fun n _ => hs n
      calls_le := fun n => by simp [hn]
      calls_zero := fun n _ => hn n }

/-- What `CoreInv` looks at, apart from the bits of the flags words. -/
structure SameFrame (c c' : Core P Q G W K T) : Prop where
  lists : c'.lists = c.lists
  curr : c'.curr = c.curr
  ticket : c'.ticket = c.ticket
  target : c'.target = c.target
  stage : c'.stage = c.stage
  calls : c'.calls = c.calls
  next : c'.next = c.next

section Congr
variable {cfg : WqConfig P Q G K} {c c' : Core P Q G W K T}

theorem SameFrame.chain_eq (h : SameFrame c c') : c'.chain = c.chain := by
  funext x
  cases x with
  | work w => simp only [Core.chain, h.ticket]
  | barrier t => simp only [Core.chain, h.target]

theorem SameFrame.same_eq (h : SameFrame c c') : c'.same = c.same := by
  funext x y
  simp only [Core.same, h.chain_eq]

theorem SameFrame.needs_eq (h : SameFrame c c') : c'.needs = c.needs := by
  funext pl y
  cases pl with
  | worklist p => simp only [Core.needs, Core.over, h.chain_eq, h.stage]
  | delayed q => rfl
  | scheduled k => simp only [Core.needs, Core.over, h.chain_eq, h.stage, h.curr]

/-- The flags words may change for items that are on no list, and counters may change at will. -/
theorem CoreInv.congr (h : CoreInv cfg c) (hs : SameFrame c c')
    (hf : ∀ x pl, x ∈ c.lists pl → c'.flags x = c.flags x)
    (hu : ∀ x, (∀ pl, x ∉ c.lists pl) → ∀ q, (c'.flags x).data ≠ .pwq q) : CoreInv cfg c' where
  layout :=
    { nodup := fun pl => by
        rw [hs.lists]
        exact h.layout.nodup pl
      situated := by
        intro x
        by_cases hx : ∃ pl, x ∈ c.lists pl
        · obtain ⟨pl, hx⟩ := hx
          have he := hf x pl hx
          refine (h.layout.situated x).congr (fun pl' => by rw [hs.lists]) ⟨?_, ?_, ?_⟩ ?_
          · rw [he]
          · rw [he]
          · rw [he]
          · rw [he]
        · have hx' : ∀ pl, x ∉ c.lists pl := fun pl hm => hx ⟨pl, hm⟩
          exact situated_of_unlisted (fun pl => by rw [hs.lists]; exact hx' pl) (hu x hx')
      running_pool := fun k r hk => h.layout.running_pool k r (hs.curr ▸ hk)
      running_bit := fun k r hk => h.layout.running_bit k r (hs.curr ▸ hk)
      running_unique := fun k k' r r' hk hk' =>
        h.layout.running_unique k k' r r' (hs.curr ▸ hk) (hs.curr ▸ hk') }
  chained :=
    { path := by
        intro pl
        have hp := h.chained.path pl
        rw [hs.lists]
        unfold Core.linkage at hp ⊢
        rw [hs.same_eq, hs.needs_eq]
        refine hp.relink (fun x hx => ?_) (fun _ _ _ _ hxy => hxy) (fun _ _ hn => hn)
        simp only [Core.linked, hf x pl (hx.resolve_left (by simp))]
      running_over := by
        intro k r hk hb
        have := h.chained.running_over k r (hs.curr ▸ hk) hb
        simpa only [Core.over, hs.stage] using this }
  staged :=
    { listed := by
        intro x pl hx
        rw [hs.stage, hs.ticket]
        exact h.staged.listed x pl (hs.lists ▸ hx)
      running := by
        intro k r hk
        rw [hs.stage]
        exact h.staged.running k r (hs.curr ▸ hk)
      fresh := by
        intro n hn
        rw [hs.stage]
        exact h.staged.fresh n (hs.next ▸ hn)
      calls_le := by
        intro n
        rw [hs.calls]
        exact h.staged.calls_le n
      calls_zero := by
        intro n hn
        rw [hs.calls]
        exact h.staged.calls_zero n (hs.stage ▸ hn) }

theorem CoreInv.counters (h : CoreInv cfg c) (hs : SameFrame c c') (hf : c'.flags = c.flags) :
    CoreInv cfg c' := by
  refine h.congr hs (fun x pl _ => by rw [hf]) ?_
  intro x hx q hq
  rw [hf] at hq
  obtain ⟨pl, hpl⟩ := (h.layout.situated x).queued q hq
  exact hx pl hpl

end Congr

theorem Chained.gap_before {c : Core P Q G W K T} (h : Chained c) {pl : Place P Q K} {a b : List (Item W T)}
    {x : Item W T} (hl : c.lists pl = a ++ x :: b) (hx : x.isBarrier = false ∨ a = []) :
    ∀ z, lastOr none a = some z → c.linked z = false := by
  intro z hz
  rcases hx with hx | rfl
  · have hp := h.path pl
    rw [hl] at hp
    have hlast := (path_append_cons.mp hp).1.last
    rw [hz] at hlast
    refine Bool.eq_false_iff.mpr fun ht => ?_
    obtain ⟨y, hy, hsame⟩ := hlast.1 z rfl ht
    cases hy
    have hb : x.isBarrier = true := hsame.1
    rw [hx] at hb
    exact Bool.noConfusion hb
  · cases hz

/-! ## Moving a group -/

variable [DecidableEq P] [DecidableEq Q] [DecidableEq K]

/-- The lists after `run.1` has gone from `src` to the tail of `dst`. -/
def Core.moved (c : Core P Q G W K T) (src dst : Place P Q K) (a : List (Item W T))
    (run : List (Item W T) × List (Item W T)) : Core P Q G W K T :=
  { c with lists := Function.update (Function.update c.lists src (a ++ run.2)) dst (c.lists dst ++ run.1) }

variable [DecidableEq W] [DecidableEq T]

theorem moveLinkedWorks_eq (c : Core P Q G W K T) {src : Place P Q K} (dst : Place P Q K) {x : Item W T}
    (hx : x ∈ c.lists src) : ∃ a b, c.lists src = a ++ x :: b ∧ x ∉ a ∧
      moveLinkedWorks c src dst x = c.moved src dst a (splitRun c.linked (x :: b)) := by
  obtain ⟨a, b, he, hxa, ht, hd⟩ := exists_cut_at hx
  refine ⟨a, b, he, hxa, ?_⟩
  unfold moveLinkedWorks Core.moved
  rw [ht, hd]

section Moved
variable {cfg : WqConfig P Q G K} {c : Core P Q G W K T} {src dst : Place P Q K} {a : List (Item W T)}
  {run : List (Item W T) × List (Item W T)}

theorem mem_moved (h : Layout cfg c) (hne : src ≠ dst) (hsplit : c.lists src = a ++ (run.1 ++ run.2))
    (y : Item W T) (pl : Place P Q K) :
    y ∈ (c.moved src dst a run).lists pl ↔ (y ∈ run.1 ∧ pl = dst) ∨ (y ∉ run.1 ∧ y ∈ c.lists pl) := by
  have hin : y ∈ run.1 → y ∈ c.lists src := by
    intro hy
    rw [hsplit]
    exact List.mem_append_right a (List.mem_append_left _ hy)
  have hnd : (a ++ (run.1 ++ run.2)).Nodup := hsplit ▸ h.nodup src
  by_cases hd : pl = dst
  · subst hd
    have hout : y ∈ c.lists pl → y ∉ run.1 := fun hy hr =>
      hne ((h.situated y).unique src pl (hin hr) hy)
    simp only [Core.moved, Function.update_self, List.mem_append]
    tauto
  · by_cases hs : pl = src
    · subst hs
      simp only [Core.moved, Function.update_of_ne hd, Function.update_self, hsplit, List.mem_append]
      have h1 : y ∈ a → y ∉ run.1 := fun hy hr =>
        (List.nodup_append.mp hnd).2.2 y hy y (List.mem_append_left _ hr) rfl
      have h2 : y ∈ run.2 → y ∉ run.1 := fun hy hr =>
        (List.nodup_append.mp (List.nodup_append.mp hnd).2.1).2.2 y hr y hy rfl
      tauto
    · have hout : y ∈ c.lists pl → y ∉ run.1 := fun hy hr =>
        hs ((h.situated y).unique pl src hy (hin hr))
      simp only [Core.moved, Function.update_of_ne hd, Function.update_of_ne hs]
      tauto

omit [DecidableEq W] [DecidableEq T] in
theorem nodup_moved (h : Layout cfg c) (hne : src ≠ dst) (hsplit : c.lists src = a ++ (run.1 ++ run.2))
    (pl : Place P Q K) : ((c.moved src dst a run).lists pl).Nodup := by
  have hnd : (a ++ (run.1 ++ run.2)).Nodup := hsplit ▸ h.nodup src
  by_cases hd : pl = dst
  · subst hd
    simp only [Core.moved, Function.update_self]
    have hrun : run.1.Nodup := (List.nodup_append.mp (List.nodup_append.mp hnd).2.1).1
    refine List.nodup_append.mpr ⟨h.nodup pl, hrun, ?_⟩
    rintro y hy z hz rfl
    have hz' : y ∈ c.lists src := by
      rw [hsplit]
      exact List.mem_append_right a (List.mem_append_left _ hz)
    exact hne ((h.situated y).unique src pl hz' hy)
  · by_cases hs : pl = src
    · subst hs
      simp only [Core.moved, Function.update_of_ne hd, Function.update_self]
      exact hnd.sublist ((List.sublist_append_right run.1 run.2).append_left a)
    · simp only [Core.moved, Function.update_of_ne hd, Function.update_of_ne hs]
      exact h.nodup pl

/-- A group moves to another list of the same pool, together with a change of the DELAYED bits. -/
theorem CoreInv.moved (h : CoreInv cfg c) (hne : src ≠ dst) {x : Item W T} {b : List (Item W T)}
    (hsplit : c.lists src = a ++ x :: b) (hx : x.isBarrier = false ∨ a = [])
    (hfit : ∀ q, Fits cfg src q → Fits cfg dst q) (hneeds : ∀ y, c.needs dst y → c.needs src y)
    {f : Item W T → WorkFlags P Q} (hf : ∀ y, SameWord (c.flags y) (f y))
    (hlk : ∀ y, (f y).linked = (c.flags y).linked)
    (hdel : ∀ y, y ∉ (splitRun c.linked (x :: b)).1 → (f y).delayed = (c.flags y).delayed)
    (hrun : ∀ y ∈ (splitRun c.linked (x :: b)).1, y.isBarrier = false → (f y).delayed = dst.isDelayed) :
    CoreInv cfg { c.moved src dst a (splitRun c.linked (x :: b)) with flags := f } := by
  have hsplit' : c.lists src = a ++ ((splitRun c.linked (x :: b)).1 ++ (splitRun c.linked (x :: b)).2) := by
    rw [splitRun_append]
    exact hsplit
  have hmem := mem_moved h.layout hne hsplit'
  have hsrc := h.chained.path src
  have hgap := h.chained.gap_before hsplit hx
  refine ⟨⟨nodup_moved h.layout hne hsplit', ?_, h.layout.running_pool, h.layout.running_bit,
    h.layout.running_unique⟩, ⟨?_, h.chained.running_over⟩, ⟨?_, h.staged.running, h.staged.fresh,
    h.staged.calls_le, h.staged.calls_zero⟩⟩
  · intro y
    by_cases hy : y ∈ (splitRun c.linked (x :: b)).1
    · have hysrc : y ∈ c.lists src := by
        rw [hsplit']
        exact List.mem_append_right a (List.mem_append_left _ hy)
      refine (h.layout.situated y).move hysrc (fun pl => ?_) (hf y) (hrun y hy) hfit
      exact (hmem y pl).trans (by simp [hy])
    · refine (h.layout.situated y).congr (fun pl => ?_) (hf y) (hdel y hy)
      exact (hmem y pl).trans (by simp [hy])
  · intro pl
    have hcut := path_cut (by rw [← hsplit]; exact hsrc) hgap
    have hlinked : ∀ y, Core.linked { c.moved src dst a (splitRun c.linked (x :: b))
        with flags := f } y = c.linked y :=
      fun y => hlk y
    have hsame : ∀ y z, c.same y z →
        Core.same { c.moved src dst a (splitRun c.linked (x :: b)) with flags := f } y z := by
      intro y z hyz
      cases y <;> cases z <;> exact hyz
    by_cases hd : pl = dst
    · subst hd
      have hmoved : ListPath (c.linkage pl) none (splitRun c.linked (x :: b)).1 none :=
        hcut.1.relink (fun _ _ => rfl) (fun _ _ _ _ hyz => hyz) (fun y _ => hneeds y)
      have hjoin := (h.chained.path pl).concat hmoved
      simp only [Core.moved, Function.update_self]
      refine hjoin.relink (fun y _ => hlinked y) (fun y z _ _ => hsame y z) ?_
      intro y _ hn
      cases y <;> exact hn
    · by_cases hs : pl = src
      · subst hs
        simp only [Core.moved, Function.update_of_ne hd, Function.update_self]
        refine hcut.2.relink (fun y _ => hlinked y) (fun y z _ _ => hsame y z) ?_
        intro y _ hn
        cases y <;> exact hn
      · simp only [Core.moved, Function.update_of_ne hd, Function.update_of_ne hs]
        refine (h.chained.path pl).relink (fun y _ => hlinked y) (fun y z _ _ => hsame y z) ?_
        intro y _ hn
        cases y <;> exact hn
  · intro y pl hy
    rcases (hmem y pl).mp hy with ⟨hr, -⟩ | ⟨-, hold⟩
    · have hysrc : y ∈ c.lists src := by
        rw [hsplit']
        exact List.mem_append_right a (List.mem_append_left _ hr)
      have := h.staged.listed y src hysrc
      cases y <;> exact this
    · have := h.staged.listed y pl hold
      cases y <;> exact this

end Moved

end Skp.Workqueue
