import Mathlib.Data.List.Forall2
import WordStream.Proofs.Stream.Runs

/-!
# Histories

A history is a run of calls on a new state that goes on after every fault but the refusal of an
allocation.  What a new state has and every call keeps, all states of a history have; the induction over
the calls is made here, so that an invariant is left to be proved call by call.
-/

namespace WordStream

section Histories

variable {σ α γ ι : Type} {run : ι → WriteM σ α} {inv : σ → Prop}

/-- Calls that keep an invariant, and answer from it as they should, do so along a run. -/
theorem Achieves.traced_forall₂ {report : σ → γ} {post : ι → α × γ → Prop}
    (h : ∀ call s, inv s → Achieves (run call) s fun a s' => inv s' ∧ post call (a, report s'))
    (calls : List ι) {s : σ} (hs : inv s) :
    Achieves (traced report (calls.map run)) s fun shown s' =>
      inv s' ∧ List.Forall₂ post calls shown := by
  induction calls generalizing s with
  | nil => exact Achieves.pure ⟨hs, .nil⟩
  | cons call calls ih =>
      refine Achieves.traced_cons ((h call s hs).mono ?_)
      rintro a s' ⟨hs', hcall⟩
      exact (ih hs').mono fun shown s'' ⟨hs'', hshown⟩ => ⟨hs'', .cons hcall hshown⟩

/-- Make calls on a new state: what each tells and the state after it, and the state at the end. -/
def history (start : Except Fault σ) (run : ι → WriteM σ α) (calls : List ι) :
    Except Fault (List (Except Fault α × σ) × σ) :=
  runOn start (traced id (calls.map fun call => caught (run call)))

/-- What new states have and every call keeps, all states of a history have. -/
theorem Delivers.history {start : Except Fault σ} {post : ι → Except Fault α → σ → Prop}
    (hstart : Delivers start inv)
    (hcall : ∀ call s, inv s → Achieves (caught (run call)) s fun told s' =>
      inv s' ∧ post call told s') (calls : List ι) :
    Delivers (WordStream.history start run calls) fun result =>
      inv result.2 ∧ List.Forall₂ (fun call x => inv x.2 ∧ post call x.1 x.2) calls result.1 :=
  hstart.runOn fun _ hs => Achieves.traced_forall₂
    (fun call s hs => (hcall call s hs).mono fun _ _ h => ⟨h.1, h⟩) calls hs

/-- Act after a history: the states before and after the act. -/
def around (start : Except Fault σ) (run : ι → WriteM σ α) (calls : List ι) (act : WriteM σ Unit) :
    Except Fault (σ × σ) :=
  runOn start do
    let _ ← traced id (calls.map fun call => caught (run call))
    let before ← get
    act
    return before

/-- An act that follows on a history starts from a state with what new states have and every call keeps;
without calls this is the new state itself. -/
theorem Delivers.around {start : Except Fault σ} {act : WriteM σ Unit} {fresh : σ → Prop}
    {post : σ → σ → Prop} (hstart : Delivers start fun s => inv s ∧ fresh s)
    (hcall : ∀ call s, inv s → Achieves (caught (run call)) s fun _ s' => inv s')
    (hact : ∀ s, inv s → Achieves act s fun _ s' => post s s') (calls : List ι) :
    Delivers (WordStream.around start run calls act) fun result =>
      (calls = [] → fresh result.1) ∧ post result.1 result.2 := by
  have hrun : ∀ s, inv s → fresh s →
      Achieves (traced id (calls.map fun call => caught (run call))) s fun _ s' =>
        inv s' ∧ (calls = [] → fresh s') := by
    intro s hs hfresh
    cases calls with
    | nil => exact Achieves.pure ⟨hs, fun _ => hfresh⟩
    | cons call calls =>
        have hkept : Achieves (traced id ((call :: calls).map fun call => caught (run call))) s
            fun shown s' => inv s' ∧ List.Forall₂ (fun _ _ => True) (call :: calls) shown :=
          Achieves.traced_forall₂
            (fun call s hs => (hcall call s hs).mono fun _ _ h => ⟨h, trivial⟩) _ hs
        exact hkept.mono fun _ _ h => ⟨h.1, by simp⟩
  have hwhole : ∀ s, inv s ∧ fresh s →
      Achieves (do
        let _ ← traced id (calls.map fun call => caught (run call))
        let before ← get
        act
        return before) s fun before after => (calls = [] → fresh before) ∧ post before after := by
    rintro s ⟨hs, hfresh⟩
    refine (hrun s hs hfresh).bind ?_
    rintro _ s' ⟨hs', hfresh'⟩
    exact Achieves.bind_get ((hact s' hs').bind fun _ _ hpost => Achieves.pure ⟨hfresh', hpost⟩)
  exact hstart.runOn hwhole

end Histories

end WordStream
