import WordStream.Proofs.Stream.Composition
import WordStream.Proofs.Stream.Simulation

/-!
# Reads that hang on what they take

Unless a read fails for the want of more, what it gives is settled by the symbols that it takes: any
source that goes on with the same symbols gives the same, whatever lies before and behind them.
-/

namespace WordStream

section Reads

variable {ρ α γ β : Type} [SymbolSource ρ β]

/-- From any source that goes on with the given symbols, an action takes just these and fails. -/
def FailsAfter (act : ReadM ρ α) (symbols : List β) (e : DecodeError) : Prop :=
  ∀ r rest, unread r = symbols ++ rest → act r = .error e (skip symbols.length r)

theorem FailsAfter.bind {act : ReadM ρ α} {symbols : List β} {e : DecodeError}
    (h : FailsAfter act symbols e) (next : α → ReadM ρ γ) :
    FailsAfter (act >>= next) symbols e :=
  fun r rest hr => bind_of_error (h r rest hr)

theorem Takes.bind_failsAfter {act : ReadM ρ α} {next : α → ReadM ρ γ} {xs ys : List β} {a : α}
    {e : DecodeError} (h : Takes act xs a) (hnext : FailsAfter (next a) ys e) :
    FailsAfter (act >>= next) (xs ++ ys) e := by
  intro r rest hr
  rw [List.append_assoc] at hr
  rw [bind_of_ok (h r _ hr), hnext _ _ (unread_skip_of_append hr), skip_skip, List.length_append]

/-- The first symbols ahead of a source settle that an action gives a value or fails, or else it fails
for the want of more. -/
inductive SettledAt (act : ReadM ρ α) (r : ρ) : Prop where
  | takes (a : α) (taken rest : List β) (hr : unread r = taken ++ rest)
      (htakes : Takes act taken a) : SettledAt act r
  | fails (e : DecodeError) (taken rest : List β) (hr : unread r = taken ++ rest)
      (hfails : FailsAfter act taken e) : SettledAt act r
  | wants (e : DecodeError) (s : ρ) (hrun : act r = .error e s)
      (hcause : e.cause = .unexpectedEnd) : SettledAt act r

/-- Wherever an action starts, the symbols that it takes settle what it gives. -/
def Settles (act : ReadM ρ α) : Prop := ∀ r, SettledAt act r

namespace Settles

theorem pure (a : α) : Settles (Pure.pure a : ReadM ρ α) :=
  fun r => .takes a [] (unread r) rfl (Takes.pure a)

theorem throw (e : DecodeError) : Settles (throw e : ReadM ρ α) := by
  refine fun r => .fails e [] (unread r) rfl fun r' _ _ => ?_
  rw [List.length_nil, skip_zero]
  rfl

theorem bind {act : ReadM ρ α} {next : α → ReadM ρ γ} (h : Settles act)
    (hnext : ∀ a, Settles (next a)) : Settles (act >>= next) := by
  intro r
  cases h r with
  | takes a taken rest hr htakes =>
      have hahead := unread_skip_of_append hr
      cases hnext a (skip taken.length r) with
      | takes b more behind hs htakes' =>
          rw [hahead] at hs
          exact .takes b (taken ++ more) behind (by rw [hr, hs, List.append_assoc])
            (htakes.bind htakes')
      | fails e more behind hs hfails =>
          rw [hahead] at hs
          exact .fails e (taken ++ more) behind (by rw [hr, hs, List.append_assoc])
            (htakes.bind_failsAfter hfails)
      | wants e s hrun hcause =>
          exact .wants e s (by rw [bind_of_ok (htakes r rest hr), hrun]) hcause
  | fails e taken rest hr hfails => exact .fails e taken rest hr (hfails.bind next)
  | wants e s hrun hcause => exact .wants e s (bind_of_error hrun) hcause

/-- Reporting a failure under another name does not change what settles it. -/
theorem withContext {act : ReadM ρ α} (h : Settles act) (context : String) :
    Settles (act.adaptExcept (·.withContext context)) := by
  intro r
  cases h r with
  | takes a taken rest hr htakes => exact .takes a taken rest hr (htakes.adaptExcept _)
  | fails e taken rest hr hfails =>
      refine .fails (e.withContext context) taken rest hr fun r' rest' hr' => ?_
      simp only [EStateM.adaptExcept, hfails r' rest' hr']
  | wants e s hrun hcause =>
      exact .wants (e.withContext context) s (by simp only [EStateM.adaptExcept, hrun]) hcause

theorem compositional : Compositional fun α (act _ : ReadM ρ α) => Settles act :=
  ⟨⟨pure, bind⟩, throw⟩

/-- Reads of values are settled where the reads of words are. -/
theorem readValues [WordReader ρ] (hword : Settles (readWord : ReadM ρ UInt32))
    (schema : List Kind) : Settles (readValues schema : ReadM ρ (List Value)) :=
  compositional.mapM readValue readValue
    (fun kind => (compositional.readKind hword kind).withContext kind.name) schema

end Settles

/-! ## Other sources with the same symbols ahead -/

/-- Any result but a failure for the want of more. -/
def Definite (result : EStateM.Result DecodeError ρ α) : Prop :=
  ∀ e r, result = .error e r → e.cause ≠ .unexpectedEnd

/-- The same result, with another source left in place of the one that it leaves. -/
def resultAt {ε σ τ : Type} (place : σ → τ) : EStateM.Result ε σ α → EStateM.Result ε τ α
  | .ok a s => .ok a (place s)
  | .error e s => .error e (place s)

/-- A definite result is the same from any source that has the same symbols ahead and more behind them,
and it leaves that source as many symbols further on. -/
theorem Settles.eq_of_definite {act : ReadM ρ α} (h : Settles act) {r r' : ρ} {more : List β}
    (hr' : unread r' = unread r ++ more) {place : ρ → ρ}
    (hplace : ∀ n, place (skip n r) = skip n r') (hdefinite : Definite (act r)) :
    act r' = resultAt place (act r) := by
  cases h r with
  | takes a taken rest hr htakes =>
      rw [hr, List.append_assoc] at hr'
      rw [htakes r' _ hr', htakes r rest hr, resultAt, hplace]
  | fails e taken rest hr hfails =>
      rw [hr, List.append_assoc] at hr'
      rw [hfails r' _ hr', hfails r rest hr, resultAt, hplace]
  | wants e s hrun hcause => exact absurd hcause (hdefinite e s hrun)

/-- Where more symbols behind a source change what an action gives, it failed for the want of more. -/
theorem Settles.wants_of_outcome_ne {act : ReadM ρ α} (h : Settles act) {r r' : ρ} {more : List β}
    (hr' : unread r' = unread r ++ more) (hne : outcome (act r') ≠ outcome (act r)) :
    ∃ e, outcome (act r) = .error e ∧ e.cause = .unexpectedEnd := by
  cases h r with
  | takes a taken rest hr htakes =>
      rw [hr, List.append_assoc] at hr'
      rw [htakes r' _ hr', htakes r rest hr] at hne
      exact absurd rfl hne
  | fails e taken rest hr hfails =>
      rw [hr, List.append_assoc] at hr'
      rw [hfails r' _ hr', hfails r rest hr] at hne
      exact absurd rfl hne
  | wants e s hrun hcause => exact ⟨e, by rw [hrun, outcome], hcause⟩

end Reads

end WordStream
