import WordStream.Proofs.Stream.Extent

/-!
# Reads that come to the end of a source

A read that fails for the want of more leaves less than a whole group behind it, since the step that fails
is its last one.  Where no more than that is left, a read may still be the kind that fails for nothing
else.  Both pass from the reads of a format's own to all that can be asked for.
-/

namespace WordStream

section

variable {ρ α γ : Type} [Extent ρ] {width : Nat}

/-- Less than `width` is left of a source. -/
def Drained (width : Nat) (r : ρ) : Prop := limit r < place r + width

/-- A read that fails for the want of more only by leaving less than `width`. -/
def Drains (width : Nat) (act : ReadM ρ α) : Prop :=
  ∀ r e r', act r = .error e r' → e.cause = .unexpectedEnd → Drained width r'

namespace Drains

theorem pure (a : α) : Drains width (Pure.pure a : ReadM ρ α) := by
  intro r e r' hrun
  cases hrun

theorem bind {act : ReadM ρ α} {next : α → ReadM ρ γ} (h : Drains width act)
    (hnext : ∀ a, Drains width (next a)) : Drains width (act >>= next) := by
  intro r e r' hrun hcause
  cases hact : act r with
  | ok a s =>
      rw [bind_of_ok hact] at hrun
      exact hnext a s e r' hrun hcause
  | error e' s =>
      rw [bind_of_error hact] at hrun
      cases hrun
      exact h r e r' hact hcause

theorem sequential : Sequential fun α (act _ : ReadM ρ α) => Drains width act := ⟨pure, bind⟩

theorem map {act : ReadM ρ α} (f : α → γ) (h : Drains width act) :
    Drains width (act >>= fun a => Pure.pure (f a)) :=
  h.bind fun a => pure (f a)

/-- The cause of a failure stays when it is reported under another name. -/
theorem withContext {act : ReadM ρ α} (h : Drains width act) (name : String) :
    Drains width (act.adaptExcept (·.withContext name)) := by
  intro r e r' hrun hcause
  unfold EStateM.adaptExcept at hrun
  cases hact : act r with
  | ok a s =>
      rw [hact] at hrun
      cases hrun
  | error e' s =>
      rw [hact] at hrun
      cases hrun
      exact h r e' r' hact hcause

end Drains

/-- A read that fails for nothing but the want of more where less than `width` is left, and leaves less
than that again. -/
def OnlyWants (width : Nat) (act : ReadM ρ α) : Prop :=
  ∀ r, Drained width r → Drained width (leaves (act r)) ∧
    ∀ e r', act r = .error e r' → e.cause = .unexpectedEnd

namespace OnlyWants

theorem pure (a : α) : OnlyWants width (Pure.pure a : ReadM ρ α) := by
  refine fun r hr => ⟨hr, fun e r' hrun => ?_⟩
  cases hrun

theorem bind {act : ReadM ρ α} {next : α → ReadM ρ γ} (h : OnlyWants width act)
    (hnext : ∀ a, OnlyWants width (next a)) : OnlyWants width (act >>= next) := by
  intro r hr
  have hfirst := h r hr
  cases hact : act r with
  | ok a s =>
      rw [hact] at hfirst
      rw [bind_of_ok hact]
      exact hnext a s hfirst.1
  | error e s =>
      rw [hact] at hfirst
      rw [bind_of_error hact]
      refine ⟨hfirst.1, fun e' r' herror => ?_⟩
      cases herror
      exact hfirst.2 e s rfl

theorem sequential : Sequential fun α (act _ : ReadM ρ α) => OnlyWants width act := ⟨pure, bind⟩

theorem map {act : ReadM ρ α} (f : α → γ) (h : OnlyWants width act) :
    OnlyWants width (act >>= fun a => Pure.pure (f a)) :=
  h.bind fun a => pure (f a)

theorem withContext {act : ReadM ρ α} (h : OnlyWants width act) (name : String) :
    OnlyWants width (act.adaptExcept (·.withContext name)) := by
  intro r hr
  have hact := h r hr
  unfold EStateM.adaptExcept
  cases hrun : act r with
  | ok a s =>
      rw [hrun] at hact
      refine ⟨hact.1, fun e r' herror => ?_⟩
      cases herror
  | error e s =>
      rw [hrun] at hact
      refine ⟨hact.1, fun e' r' herror => ?_⟩
      cases herror
      exact hact.2 e s rfl

end OnlyWants

end

end WordStream
