/-!
# Steps of an action

How an action runs when its first step is known to give a value, or to fail.
-/

namespace WordStream

variable {ε σ α β : Type} {act : EStateM ε σ α} {next : α → EStateM ε σ β} {s s' : σ}

theorem bind_of_ok {a : α} (h : act s = .ok a s') : (act >>= next) s = next a s' := by
  simp only [Bind.bind, EStateM.bind, h]

theorem bind_of_error {e : ε} (h : act s = .error e s') : (act >>= next) s = .error e s' := by
  simp only [Bind.bind, EStateM.bind, h]

theorem discard_of_ok {a : α} (h : act s = .ok a s') : discard act s = .ok () s' := by
  change EStateM.map (fun _ => ()) act s = _
  simp only [EStateM.map, h]

theorem discard_of_error {e : ε} (h : act s = .error e s') : discard act s = .error e s' := by
  change EStateM.map (fun _ => ()) act s = _
  simp only [EStateM.map, h]

/-- Two steps give a value when the first one does and the second one does after it. -/
theorem bind_eq_ok {b : β} {s'' : σ} :
    (act >>= next) s = .ok b s'' ↔ ∃ a s', act s = .ok a s' ∧ next a s' = .ok b s'' := by
  constructor
  · intro h
    cases hact : act s with
    | ok a s' =>
        rw [bind_of_ok hact] at h
        exact ⟨a, s', rfl, h⟩
    | error e s' =>
        rw [bind_of_error hact] at h
        cases h
  · rintro ⟨a, s', hact, hnext⟩
    rw [bind_of_ok hact, hnext]

/-- Actions one after the other fail as the first of them that fails. -/
theorem mapM_of_error {ι : Type} {act : ι → EStateM ε σ α} {earlier later : List ι} {i : ι}
    {s'' : σ} {answers : List α} {e : ε} (hearlier : earlier.mapM act s = .ok answers s')
    (hi : act i s' = .error e s'') : (earlier ++ i :: later).mapM act s = .error e s'' := by
  rw [List.mapM_append, bind_of_ok hearlier, List.mapM_cons]
  exact bind_of_error (bind_of_error hi)

end WordStream
