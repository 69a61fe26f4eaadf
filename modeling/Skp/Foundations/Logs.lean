import Mathlib

/-! # Logs

A log in which every entry is allowed by the entries before it: the order of calls that a component
promises, as a property of the list of its calls. A log grows at its end, one entry at a time. -/
namespace Skp.Foundations
set_option autoImplicit false

variable {N : Type*} {ok ok' : List N → N → Prop} {log : List N} {n : N}

def Legal (ok : List N → N → Prop) (log : List N) : Prop := ∀ pre n post, log = pre ++ n :: post → ok pre n

theorem legal_nil : Legal ok [] := by
  intro pre n post h
  simp at h

theorem legal_concat : Legal ok (log ++ [n]) ↔ Legal ok log ∧ ok log n := by
  constructor
  · intro h
    refine ⟨fun pre m post hlog => ?_, h log n [] rfl⟩
    apply h pre m (post ++ [n])
    rw [hlog, List.append_assoc, List.cons_append]
  · rintro ⟨hlog, hn⟩ pre m post h
    rcases List.eq_nil_or_concat post with rfl | ⟨post', x, rfl⟩
    · obtain ⟨rfl, hm⟩ := List.append_inj' h rfl
      obtain rfl := List.singleton_inj.mp hm
      exact hn
    · rw [List.concat_eq_append, ← List.cons_append, ← List.append_assoc] at h
      obtain ⟨hpre, -⟩ := List.append_inj' h rfl
      exact hlog pre m post' hpre

/-- An entry that is refused after one of its kind occurs at most once. -/
theorem Legal.countP_le_one {p : N → Bool} (h : Legal ok log)
    (honce : ∀ pre n, ok pre n → p n = true → pre.any p = false) : log.countP p ≤ 1 := by
  induction log using List.reverseRecOn with
  | nil => simp
  | append_singleton log n ih =>
    obtain ⟨hlog, hn⟩ := legal_concat.mp h
    rw [List.countP_append, List.countP_singleton]
    split
    · rename_i hp
      have hnone : log.countP p = 0 := by
        rw [List.countP_eq_zero]
        intro m hm hpm
        have hany := honce log n hn hp
        rw [List.any_eq_false] at hany
        exact hany m hm hpm
      omega
    · have hle := ih hlog
      omega

end Skp.Foundations
