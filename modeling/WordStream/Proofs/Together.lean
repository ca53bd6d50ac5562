import WordStream.Proofs.Refusal

/-!
# Two runs side by side

Of two actions that are run from related states it is asked only that they do alike when neither is
refused.  This passes along steps, also where a step looks at the state, as long as related states look
the same to it.
-/

namespace WordStream

/-- From related states, two actions that both give a value give the same one, and leave related
states. -/
def Together {σ α : Type} (rel : σ → σ → Prop) (act act' : WriteM σ α) : Prop :=
  ∀ s s' a a' t t', rel s s' → act s = .ok a t → act' s' = .ok a' t' → a = a' ∧ rel t t'

namespace Together

variable {σ α β ι : Type} {rel : σ → σ → Prop} {act act' : WriteM σ α}
  {next next' : α → WriteM σ β}

theorem pure (a : α) : Together rel (Pure.pure a : WriteM σ α) (Pure.pure a) := by
  intro s s' a a' t t' h hrun hrun'
  cases hrun
  cases hrun'
  exact ⟨rfl, h⟩

theorem bind (h : Together rel act act') (hnext : ∀ a, Together rel (next a) (next' a)) :
    Together rel (act >>= next) (act' >>= next') := by
  intro s s' b b' u u' hs hrun hrun'
  obtain ⟨a, t, hact, hrest⟩ := bind_eq_ok.mp hrun
  obtain ⟨a', t', hact', hrest'⟩ := bind_eq_ok.mp hrun'
  obtain ⟨rfl, ht⟩ := h s s' a a' t t' hs hact hact'
  exact hnext a t t' b b' u u' ht hrest hrest'

theorem map (f : α → β) (h : Together rel act act') :
    Together rel (f <$> act) (f <$> act') := by
  rw [map_eq_pure_bind, map_eq_pure_bind]
  exact h.bind fun a => .pure (f a)

/-- Actions that look at the state before they go on. -/
theorem bind_get {next next' : σ → WriteM σ β}
    (h : ∀ s s', rel s s' → Together rel (next s) (next' s')) :
    Together rel (get >>= next) (get >>= next') :=
  fun s s' b b' u u' hs hrun hrun' => h s s' hs s s' b b' u u' hs hrun hrun'

/-- An action that is taken under a condition, before the ones that follow in any case. -/
theorem bind_if {c : Prop} [Decidable c] {first : WriteM σ Unit} {next : Unit → WriteM σ β}
    (hfirst : Together rel first first) (hnext : ∀ u, Together rel (next u) (next u)) :
    Together rel (if c then first >>= next else next ())
      (if c then first >>= next else next ()) := by
  split
  · exact hfirst.bind hnext
  · exact hnext ()

theorem forM {write : ι → WriteM σ Unit} (h : ∀ i, Together rel (write i) (write i))
    (is : List ι) : Together rel (is.forM write) (is.forM write) := by
  induction is with
  | nil => exact .pure ()
  | cons i is ih => exact (h i).bind fun _ => ih

end Together

end WordStream
