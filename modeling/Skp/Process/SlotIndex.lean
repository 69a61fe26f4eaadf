import Skp.Foundations.Runs

/-! # The slot index in an event's flags word

The byte of the flags word that `uev_core_setcpu` and `uev_core_chgidx` of `src/process/event.c`
write and `loc_slot` reads. Calls follow one another here, so the index does not move while a
deletion waits and `-EAGAIN` is not returned. -/
namespace Skp.Process.SlotIndex
set_option autoImplicit false
open Skp.Foundations

abbrev EvFlags := BitVec 64

def eventTypeMask : EvFlags := 3
def eventStream : EvFlags := 0
def eventSignal : EvFlags := 2
def eventPending : EvFlags := 1 <<< 2
def eventAttached : EvFlags := 1 <<< 3
def eventIdxShift : ℕ := 5
def eventIdxMax : ℕ := 255
def eventIdxMask : EvFlags := 255 <<< 5

def uevFlagsIdx (flags : EvFlags) : ℕ := ((flags &&& eventIdxMask) >>> eventIdxShift).toNat

def uevMaskOther (flags : EvFlags) : EvFlags := flags &&& ~~~eventIdxMask

/-- The index is an `int` that is converted to `unsigned long`. -/
def uevCoreMkidx (idx : ℤ) : EvFlags := (BitVec.ofInt 64 idx <<< eventIdxShift) &&& eventIdxMask

/-- What the calls see around an event: the slots that run and the free stream ids of each, the mode, the cpu
`thread_cpu` gives and the value `dispatch_idx` has. -/
structure IdxEnv where
  singleMode : Bool
  running : ℕ → Bool
  nrFree : ℕ → ℕ
  threadCpu : ℤ
  dispatchIdx : ℕ

/-- `loc_slot`; the outer `none` is its `EVENT_BUG_ON`. -/
def locSlot (nrCpus : ℕ) (env : IdxEnv) (idx : ℕ) : Option (Option ℕ) :=
  if nrCpus ≤ idx then none else some (if env.running idx then some idx else none)

def lookupFreeSlot (nrCpus : ℕ) (env : IdxEnv) : Option ℕ :=
  (List.range (if env.singleMode then 1 else nrCpus)).find? fun cpu => decide (env.nrFree cpu ≠ 0)

/-- The slot `uev_core_setcpu` chooses, before it looks at the ids. -/
def setcpuHint (nrCpus : ℕ) (env : IdxEnv) (flags : EvFlags) (cpu : ℤ) : ℕ :=
  if env.singleMode then 0
  else if flags &&& eventTypeMask = eventSignal then 0
  else if cpu < 0 ∨ (nrCpus : ℤ) ≤ cpu then
    (if -1 < env.threadCpu then env.threadCpu.toNat else env.dispatchIdx) &&& (nrCpus - 1)
  else cpu.toNat

/-- `uev_core_setcpu`: the new flags word and the index returned, `none` for `-ENODEV`. -/
def uevCoreSetcpu (nrCpus : ℕ) (env : IdxEnv) (flags : EvFlags) (cpu : ℤ) : EvFlags × Option ℕ :=
  let idx := uevFlagsIdx flags
  if idx < nrCpus then (flags, some idx)
  else
    let hint := setcpuHint nrCpus env flags cpu
    let chosen :=
      -- a few ids are kept against reuse
      if flags &&& eventTypeMask = eventStream ∧ env.nrFree hint < 3 then lookupFreeSlot nrCpus env
        else some hint
    match chosen with
    | none => (flags, none)
    | some cpu =>
        (if uevFlagsIdx flags ≠ eventIdxMax then flags else uevMaskOther flags ||| uevCoreMkidx cpu, some cpu)

/-- `uev_core_chgidx`. The first test is never true: it is written with `&&`. -/
def uevCoreChgidx (nrCpus : ℕ) (flags : EvFlags) (idx : ℤ) : EvFlags :=
  let idx := if idx < 0 ∧ (nrCpus : ℤ) ≤ idx then (eventIdxMax : ℤ) else idx
  if flags &&& eventPending ≠ 0 then flags else uevMaskOther flags ||| uevCoreMkidx idx

/-- `acquire_slot`: the flags word may get an index first. -/
def acquireSlot (nrCpus : ℕ) (env : IdxEnv) (flags : EvFlags) : Option (EvFlags × Option ℕ) :=
  let idx := uevFlagsIdx flags
  if idx = eventIdxMax then
    match uevCoreSetcpu nrCpus env flags idx with
    | (flags, none) => some (flags, none)
    | (flags, some idx) => (locSlot nrCpus env idx).map fun slot => (flags, slot)
  else (locSlot nrCpus env idx).map fun slot => (flags, slot)

/-- The lock section of a synchronous deletion. `clear` takes the event out; a wait ends with the
event armed again by its callback, while the slot still runs (`true`) or no longer does (`false`),
or with the event out. -/
def deleteSection (nrCpus : ℕ) (clear : EvFlags → EvFlags) (idx : ℤ) : List Bool → EvFlags → EvFlags
  | [], flags => uevCoreChgidx nrCpus (clear flags) idx
  | true :: waits, flags => deleteSection nrCpus clear idx waits (clear flags ||| eventPending)
  | false :: _, flags => clear flags ||| eventPending

/-- The synchronous deletions of timers and streams; `none` is a `BUG_ON`. -/
def deleteSync (nrCpus : ℕ) (env : IdxEnv) (clear : EvFlags → EvFlags) (idx : ℤ) (waits : List Bool)
    (flags : EvFlags) :
    Option EvFlags :=
  if uevFlagsIdx flags = eventIdxMax then some flags
  else
    (acquireSlot nrCpus env flags).map fun r =>
      match r.2 with
      | none => r.1
      | some _ => deleteSection nrCpus clear idx waits r.1

def uevTimerDelete (nrCpus : ℕ) (env : IdxEnv) (idx : ℤ) (waits : List Bool) (flags : EvFlags) :
    Option EvFlags :=
  deleteSync nrCpus env (fun f => f &&& ~~~eventPending) idx waits flags

def uevStreamDelete (nrCpus : ℕ) (env : IdxEnv) (idx : ℤ) (waits : List Bool) (flags : EvFlags) :
    Option EvFlags :=
  deleteSync nrCpus env (fun f => f &&& ~~~eventAttached &&& ~~~eventPending) idx waits flags

inductive IdxCmd where
  | setcpu (cpu : ℤ)
  | timerDelete (idx : ℤ) (waits : List Bool)
  | streamDelete (idx : ℤ) (waits : List Bool)

def idxStep (nrCpus : ℕ) (flags : EvFlags) : IdxEnv × IdxCmd → Option EvFlags
  | (env, .setcpu cpu) => some (uevCoreSetcpu nrCpus env flags cpu).1
  | (env, .timerDelete idx waits) => uevTimerDelete nrCpus env idx waits flags
  | (env, .streamDelete idx waits) => uevStreamDelete nrCpus env idx waits flags

/-! ## The index byte -/

theorem uevFlagsIdx_setIdx (flags : EvFlags) (idx : ℤ) :
    uevFlagsIdx (uevMaskOther flags ||| uevCoreMkidx idx) = (idx % 256).toNat := by
  have hbyte : ((uevMaskOther flags ||| uevCoreMkidx idx) &&& eventIdxMask) >>> eventIdxShift =
      BitVec.ofInt 64 idx &&& 255#64 := by
    have hmask : ∀ i : ℕ, i < 64 → eventIdxMask.getLsbD (5 + i) = (255#64).getLsbD i := by decide
    have hlow : ∀ i : ℕ, i < 64 → (255#64).getLsbD i = true → i < 8 := by decide
    refine BitVec.eq_of_getLsbD_eq fun i hi => ?_
    simp only [uevMaskOther, uevCoreMkidx, eventIdxShift, BitVec.getLsbD_ushiftRight, BitVec.getLsbD_and,
      BitVec.getLsbD_or, BitVec.getLsbD_not, BitVec.getLsbD_shiftLeft, hmask i hi]
    cases hbit : (255#64).getLsbD i with
    | false => simp only [Bool.and_false]
    | true =>
      have hfit : 5 + i < 64 := by have := hlow i hi hbit; omega
      simp [hfit]
  rw [uevFlagsIdx, hbyte, BitVec.toNat_and, BitVec.toNat_ofInt]
  change (idx % 2 ^ 64).toNat &&& 2 ^ 8 - 1 = _
  rw [Nat.and_two_pow_sub_one_eq_mod]
  omega

theorem uevFlagsIdx_congr {f g : EvFlags} (h : f &&& eventIdxMask = g &&& eventIdxMask) :
    uevFlagsIdx f = uevFlagsIdx g := by
  rw [uevFlagsIdx, h, uevFlagsIdx]

theorem uevFlagsIdx_clear {flags bits : EvFlags} (h : ~~~bits &&& eventIdxMask = eventIdxMask) :
    uevFlagsIdx (flags &&& ~~~bits) = uevFlagsIdx flags :=
  uevFlagsIdx_congr (by rw [BitVec.and_assoc, h])

theorem uevFlagsIdx_setPending (flags : EvFlags) :
    uevFlagsIdx (flags ||| eventPending) = uevFlagsIdx flags := by
  refine uevFlagsIdx_congr ?_
  have hzero : eventPending &&& eventIdxMask = 0 := by decide
  refine BitVec.eq_of_getLsbD_eq fun i _ => ?_
  have hbit := congrArg (fun v : EvFlags => v.getLsbD i) hzero
  simp only [BitVec.getLsbD_and] at hbit
  simp only [BitVec.getLsbD_and, BitVec.getLsbD_or]
  rw [Bool.and_or_distrib_right, hbit]
  simp

/-! ## The invariant -/

section Invariant
variable {nrCpus : ℕ} {env : IdxEnv} {flags flags' : EvFlags}

def IndexOk (nrCpus : ℕ) (flags : EvFlags) : Prop :=
  uevFlagsIdx flags = eventIdxMax ∨ uevFlagsIdx flags < nrCpus

theorem lookupFreeSlot_lt {cpu : ℕ} (hpos : 0 < nrCpus) (h : lookupFreeSlot nrCpus env = some cpu) :
    cpu < nrCpus := by
  have hmem := List.mem_range.mp (List.mem_of_find?_eq_some h)
  split at hmem <;> omega

theorem setcpuHint_lt (hpos : 0 < nrCpus) (cpu : ℤ) : setcpuHint nrCpus env flags cpu < nrCpus := by
  unfold setcpuHint
  by_cases hout : cpu < 0 ∨ (nrCpus : ℤ) ≤ cpu
  · rw [if_pos hout]
    have hmask : ∀ x : ℕ, x &&& (nrCpus - 1) < nrCpus := fun x =>
      lt_of_le_of_lt Nat.and_le_right (Nat.sub_lt hpos Nat.one_pos)
    split_ifs
    · exact hpos
    · exact hpos
    · exact hmask _
    · exact hmask _
  · rw [if_neg hout]
    split_ifs
    · exact hpos
    · exact hpos
    · omega

theorem uevCoreSetcpu_cases (env : IdxEnv) (flags : EvFlags) (hpos : 0 < nrCpus) (cpu : ℤ) :
    uevCoreSetcpu nrCpus env flags cpu = (flags, none) ∨
    ∃ slot < nrCpus, uevCoreSetcpu nrCpus env flags cpu = (flags, some slot) ∨
      uevCoreSetcpu nrCpus env flags cpu = (uevMaskOther flags ||| uevCoreMkidx slot, some slot) := by
  unfold uevCoreSetcpu
  dsimp only
  split
  · rename_i hidx
    exact Or.inr ⟨_, hidx, Or.inl rfl⟩
  · split
    · exact Or.inl rfl
    · rename_i slot hchosen
      have hslot : slot < nrCpus := by
        split at hchosen
        · exact lookupFreeSlot_lt hpos hchosen
        · cases hchosen
          exact setcpuHint_lt hpos cpu
      refine Or.inr ⟨slot, hslot, ?_⟩
      split
      · exact Or.inl rfl
      · exact Or.inr rfl

/-- The new index of a deletion is one of a slot or `EVENT_IDX_MAX`, as a byte. -/
def NewIndexOk (nrCpus : ℕ) (idx : ℤ) : Prop := idx % 256 = eventIdxMax ∨ idx % 256 < nrCpus

theorem indexOk_setIdx (idx : ℤ) :
    IndexOk nrCpus (uevMaskOther flags ||| uevCoreMkidx idx) ↔ NewIndexOk nrCpus idx := by
  rw [IndexOk, NewIndexOk, uevFlagsIdx_setIdx]
  omega

theorem indexOk_congr (h : uevFlagsIdx flags = uevFlagsIdx flags') :
    IndexOk nrCpus flags ↔ IndexOk nrCpus flags' := by
  rw [IndexOk, IndexOk, h]

theorem IndexOk.setcpu (hpos : 0 < nrCpus) (h : IndexOk nrCpus flags) (env : IdxEnv) (cpu : ℤ) :
    IndexOk nrCpus (uevCoreSetcpu nrCpus env flags cpu).1 := by
  obtain hnone | ⟨slot, hslot, hkeep | hset⟩ := uevCoreSetcpu_cases env flags hpos cpu
  · rw [hnone]
    exact h
  · rw [hkeep]
    exact h
  · rw [hset]
    refine (indexOk_setIdx _).mpr (Or.inr ?_)
    omega

theorem IndexOk.acquireSlot (env : IdxEnv) (hpos : 0 < nrCpus) (h : IndexOk nrCpus flags) :
    ∃ flags' slot, acquireSlot nrCpus env flags = some (flags', slot) ∧ IndexOk nrCpus flags' ∧
      ∀ idx, slot = some idx → idx < nrCpus := by
  have hloc : ∀ idx < nrCpus, ∃ slot, locSlot nrCpus env idx = some slot ∧ ∀ i, slot = some i →
      i < nrCpus := by
    intro idx hidx
    refine ⟨_, if_neg (by omega), fun i hi => ?_⟩
    split at hi
    · cases hi
      exact hidx
    · cases hi
  unfold SlotIndex.acquireSlot
  dsimp only
  split
  · rename_i hmax
    have hset := h.setcpu hpos env (uevFlagsIdx flags : ℤ)
    obtain hnone | ⟨idx, hidx, hcase⟩ := uevCoreSetcpu_cases env flags hpos (uevFlagsIdx flags : ℤ)
    · rw [hnone]
      exact ⟨flags, none, rfl, h, fun i hi => by cases hi⟩
    · obtain ⟨slot, hslot, hlt⟩ := hloc idx hidx
      obtain ⟨flags', hflags'⟩ : ∃ flags', uevCoreSetcpu nrCpus env flags (uevFlagsIdx flags : ℤ) =
        (flags', some idx) :=
        hcase.elim (fun h => ⟨_, h⟩) (fun h => ⟨_, h⟩)
      rw [hflags'] at hset ⊢
      refine ⟨flags', slot, ?_, hset, hlt⟩
      simp only [hslot, Option.map_some]
  · rename_i hmax
    obtain ⟨slot, hslot, hlt⟩ := hloc _ (h.resolve_left hmax)
    exact ⟨flags, slot, by rw [hslot, Option.map_some], h, hlt⟩

theorem IndexOk.chgidx (h : IndexOk nrCpus flags) {idx : ℤ} (hidx : NewIndexOk nrCpus idx) :
    IndexOk nrCpus (uevCoreChgidx nrCpus flags idx) := by
  have hnever : ¬ (idx < 0 ∧ (nrCpus : ℤ) ≤ idx) := by omega
  unfold uevCoreChgidx
  dsimp only
  rw [if_neg hnever]
  split
  · exact h
  · exact (indexOk_setIdx idx).mpr hidx

theorem IndexOk.deleteSection {clear : EvFlags → EvFlags}
    (hclear : ∀ f, uevFlagsIdx (clear f) = uevFlagsIdx f)
    {idx : ℤ} (hidx : NewIndexOk nrCpus idx) :
    ∀ (waits : List Bool) (flags : EvFlags), IndexOk nrCpus flags →
      IndexOk nrCpus (deleteSection nrCpus clear idx waits flags) := by
  have hrearm : ∀ f, IndexOk nrCpus f → IndexOk nrCpus (clear f ||| eventPending) := fun f hf =>
    (indexOk_congr ((uevFlagsIdx_setPending _).trans (hclear f))).mpr hf
  intro waits
  induction waits with
  | nil => exact fun flags h => IndexOk.chgidx ((indexOk_congr (hclear flags)).mpr h) hidx
  | cons b waits ih =>
    intro flags h
    cases b with
    | true => exact ih _ (hrearm flags h)
    | false => exact hrearm flags h

theorem IndexOk.deleteSync {clear : EvFlags → EvFlags} (hclear : ∀ f, uevFlagsIdx (clear f) = uevFlagsIdx f)
    (hpos : 0 < nrCpus) (h : IndexOk nrCpus flags) {idx : ℤ} (hidx : NewIndexOk nrCpus idx)
    (waits : List Bool) :
    ∃ flags', deleteSync nrCpus env clear idx waits flags = some flags' ∧ IndexOk nrCpus flags' := by
  unfold SlotIndex.deleteSync
  split
  · exact ⟨flags, rfl, h⟩
  · obtain ⟨flags', slot, hacq, hok, -⟩ := h.acquireSlot env hpos
    rw [hacq, Option.map_some]
    cases slot with
    | none => exact ⟨flags', rfl, hok⟩
    | some x => exact ⟨_, rfl, IndexOk.deleteSection hclear hidx waits flags' hok⟩

theorem uevFlagsIdx_clearTimer (f : EvFlags) : uevFlagsIdx (f &&& ~~~eventPending) = uevFlagsIdx f :=
  uevFlagsIdx_clear (by decide)

theorem uevFlagsIdx_clearStream (f : EvFlags) :
    uevFlagsIdx (f &&& ~~~eventAttached &&& ~~~eventPending) = uevFlagsIdx f :=
  (uevFlagsIdx_clear (by decide)).trans (uevFlagsIdx_clear (by decide))

end Invariant

/-! ## Runs -/

def GoodNewIndex (nrCpus : ℕ) (_ : EvFlags) : IdxEnv × IdxCmd → Prop
  | (_, .setcpu _) => True
  | (_, .timerDelete idx _) => NewIndexOk nrCpus idx
  | (_, .streamDelete idx _) => NewIndexOk nrCpus idx

theorem idxStep_ok {nrCpus : ℕ} (hpos : 0 < nrCpus) {flags : EvFlags} (h : IndexOk nrCpus flags)
    (c : IdxEnv × IdxCmd) (hc : GoodNewIndex nrCpus flags c) :
    ∃ flags', idxStep nrCpus flags c = some flags' ∧ IndexOk nrCpus flags' := by
  obtain ⟨env, c⟩ := c
  cases c with
  | setcpu cpu => exact ⟨_, rfl, h.setcpu hpos env cpu⟩
  | timerDelete idx waits => exact IndexOk.deleteSync uevFlagsIdx_clearTimer hpos h hc waits
  | streamDelete idx waits => exact IndexOk.deleteSync uevFlagsIdx_clearStream hpos h hc waits

/-- In every run whose deletions are given good indices the index is `EVENT_IDX_MAX` or one of a
slot after every step, and the next lookup of a slot stays inside the array. -/
theorem slot_index_ok {nrCpus : ℕ} (hpos : 0 < nrCpus) {init flags : EvFlags} (hinit : IndexOk nrCpus init)
    (cs : List (IdxEnv × IdxCmd)) (hmeets : RunMeets (idxStep nrCpus) (GoodNewIndex nrCpus) init cs)
    (hrun : runActs (idxStep nrCpus) init cs = some flags) :
    IndexOk nrCpus flags ∧
      ∀ env, ∃ flags' slot, acquireSlot nrCpus env flags = some (flags', slot) ∧
        ∀ i, slot = some i → i < nrCpus := by
  have hok : IndexOk nrCpus flags :=
    run_invariant (fun f c f' h hc hstep => by
      obtain ⟨g, hg, hgok⟩ := idxStep_ok hpos h c hc
      cases hg.symm.trans hstep
      exact hgok) cs init flags hinit hmeets hrun
  refine ⟨hok, fun env => ?_⟩
  obtain ⟨flags', slot, hacq, -, hlt⟩ := hok.acquireSlot env hpos
  exact ⟨flags', slot, hacq, hlt⟩

def timerInit : EvFlags := eventIdxMask ||| 1

def idleEnv : IdxEnv :=
  { singleMode := false, running := fun _ => true, nrFree := fun _ => 100, threadCpu := 0, dispatchIdx := 0 }

theorem slot_index_ok_move : ∃ flags,
    runActs (idxStep 8) timerInit [(idleEnv, .setcpu 3), (idleEnv, .timerDelete 5 [true])] = some flags ∧
    uevFlagsIdx flags = 5 ∧ IndexOk 8 flags := by
  have hmeets : RunMeets (idxStep 8) (GoodNewIndex 8) timerInit
      [(idleEnv, .setcpu 3), (idleEnv, .timerDelete 5 [true])] :=
    RunMeets.cons rfl trivial (RunMeets.cons rfl (Or.inr (by decide)) trivial)
  exact ⟨_, rfl, by decide, (slot_index_ok (by decide) (Or.inl (by decide)) _ hmeets rfl).1⟩

/-- The index 200 passes the test of `uev_core_chgidx`, and the next lookup of a slot is outside the array. -/
theorem chgidx_out_of_range : ∃ flags,
    runActs (idxStep 8) timerInit [(idleEnv, .setcpu 3), (idleEnv, .timerDelete 200 [])] = some flags ∧
    uevFlagsIdx flags = 200 ∧ ¬ IndexOk 8 flags ∧ acquireSlot 8 idleEnv flags = none := by
  refine ⟨_, rfl, by decide, ?_, by decide⟩
  rintro (h | h) <;> revert h <;> decide

end Skp.Process.SlotIndex
