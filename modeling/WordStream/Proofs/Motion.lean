import WordStream.Proofs.Refusal

/-!
# How actions move a state

Whether an action succeeds or fails, it leaves some state.  A relation between states that holds along
every single step holds along whatever is put together from such steps.
-/

namespace WordStream

/-- The state that a result leaves, be it a success or a failure. -/
def leaves {ε σ α : Type} : EStateM.Result ε σ α → σ
  | .ok _ s => s
  | .error _ s => s

/-- What is made of the value does not change the state. -/
theorem leaves_map {ε σ α γ : Type} (f : α → γ) (act : EStateM ε σ α) (s : σ) :
    leaves ((act >>= fun a => pure (f a)) s) = leaves (act s) := by
  cases hrun : act s with
  | ok a t =>
      rw [bind_of_ok hrun]
      rfl
  | error e t =>
      rw [bind_of_error hrun]
      rfl

/-- A relation that holds where nothing is done, and along steps when it holds along each of them. -/
structure Stepwise {σ : Type} (rel : σ → σ → Prop) : Prop where
  refl : ∀ s, rel s s
  trans : ∀ {s t u}, rel s t → rel t u → rel s u

/-- Wherever an action starts and however it ends, the relation holds between the two states. -/
def Moves {ε σ α : Type} (rel : σ → σ → Prop) (act : EStateM ε σ α) : Prop :=
  ∀ s, rel s (leaves (act s))

namespace Moves

variable {ε σ α γ ι : Type} {rel : σ → σ → Prop} {act : EStateM ε σ α} {next : α → EStateM ε σ γ}

theorem pure (h : Stepwise rel) (a : α) : Moves rel (Pure.pure a : EStateM ε σ α) := h.refl

theorem throw (h : Stepwise rel) (e : ε) : Moves rel (throw e : EStateM ε σ α) := h.refl

theorem bind (h : Stepwise rel) (hact : Moves rel act) (hnext : ∀ a, Moves rel (next a)) :
    Moves rel (act >>= next) := by
  intro s
  have hfirst := hact s
  cases hrun : act s with
  | ok a t =>
      rw [hrun] at hfirst
      rw [bind_of_ok hrun]
      exact h.trans hfirst (hnext a t)
  | error e t =>
      rw [hrun] at hfirst
      rw [bind_of_error hrun]
      exact hfirst

theorem map (h : Stepwise rel) (f : α → γ) (hact : Moves rel act) :
    Moves rel (act >>= fun a => Pure.pure (f a)) :=
  hact.bind h fun a => pure h (f a)

theorem get (h : Stepwise rel) : Moves rel (get : EStateM ε σ σ) := h.refl

theorem adaptExcept {ε' : Type} (f : ε → ε') (hact : Moves rel act) :
    Moves rel (act.adaptExcept f) := by
  intro s
  have hleft := hact s
  unfold EStateM.adaptExcept
  cases hrun : act s with
  | ok a t =>
      rw [hrun] at hleft
      exact hleft
  | error e t =>
      rw [hrun] at hleft
      exact hleft

theorem forM {write : ι → EStateM ε σ Unit} (h : Stepwise rel) (hwrite : ∀ i, Moves rel (write i))
    (is : List ι) : Moves rel (is.forM write) := by
  induction is with
  | nil => exact pure h ()
  | cons i is ih => exact (hwrite i).bind h fun _ => ih

end Moves

/-- A call that is gone on after leaves the state that it leaves anyway. -/
theorem caught_leaves {σ α : Type} (act : WriteM σ α) (s : σ) :
    Achieves (caught act) s fun _ s' => s' = leaves (act s) := by
  cases hrun : act s with
  | ok a t => exact Achieves.of_ok (caught_eq_ok.mpr hrun) rfl
  | error fault t =>
      by_cases hfault : fault.isAllocation = true
      · have hcaught : caught act s = .error fault t := by
          simp [caught, hrun, hfault]
        exact Achieves.of_error hcaught hfault
      · exact Achieves.caught_of_error hrun (by simpa using hfault) rfl

/-- What an action achieves, it achieves along the relation by which it moves the state. -/
theorem Achieves.moved {σ α : Type} {rel : σ → σ → Prop} {act : WriteM σ α} {s : σ}
    {post : α → σ → Prop} (h : Achieves act s post) (hmoves : Moves rel act) :
    Achieves act s fun a s' => post a s' ∧ rel s s' := by
  have hleft := hmoves s
  unfold Achieves at *
  cases hrun : act s with
  | ok a t =>
      rw [hrun] at h hleft
      exact ⟨h, hleft⟩
  | error fault t =>
      rw [hrun] at h
      exact h

end WordStream
