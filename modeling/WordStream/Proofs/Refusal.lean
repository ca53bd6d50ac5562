import WordStream.Fault
import WordStream.Proofs.Action

/-!
# Actions that only an allocation can stop

Results about writers hold as long as no allocation passes the largest one.  `Achieves` says that an
action does what is asked of it unless it is refused such an allocation, so that no other fault can
arise; it composes along the steps of an action.
-/

namespace WordStream

/-- Whether a fault is the refusal of an allocation above the largest one. -/
def Fault.isAllocation : Fault → Bool
  | capacityOverflow => true
  | growthOverflow _ => true
  | _ => false

section Computations

variable {α β σ : Type}

/-- No allocation is refused to a computation; it may still end in another fault. -/
def AllocationGranted (result : Except Fault α) : Prop :=
  ∀ fault, result = .error fault → fault.isAllocation = false

instance (result : Except Fault α) : Decidable (AllocationGranted result) :=
  match result with
  | .ok _ => .isTrue (by intro fault h; cases h)
  | .error fault =>
      decidable_of_iff (fault.isAllocation = false)
        ⟨by intro hfault other h; cases h; exact hfault, fun h => h fault rfl⟩

/-- A computation ends in a value with the property, unless it is refused an allocation. -/
def Delivers (result : Except Fault α) (post : α → Prop) : Prop :=
  match result with
  | .ok a => post a
  | .error fault => fault.isAllocation

theorem Delivers.exists_ok {result : Except Fault α} {post : α → Prop}
    (h : Delivers result post) (hgranted : AllocationGranted result) :
    ∃ a, result = .ok a ∧ post a := by
  cases result with
  | ok a => exact ⟨a, rfl, h⟩
  | error fault =>
      have hfault : fault.isAllocation = true := h
      rw [hgranted fault rfl] at hfault
      contradiction

theorem Delivers.mono_of_ok {result : Except Fault α} {post stronger : α → Prop}
    (h : Delivers result post) (himp : ∀ a, result = .ok a → post a → stronger a) :
    Delivers result stronger := by
  cases result with
  | ok a => exact himp a rfl h
  | error fault => exact h

theorem Delivers.bind {result : Except Fault α} {next : α → Except Fault β} {mid : α → Prop}
    {post : β → Prop} (h : Delivers result mid) (hnext : ∀ a, mid a → Delivers (next a) post) :
    Delivers (result >>= next) post := by
  cases result with
  | ok a => exact hnext a h
  | error fault => exact h

/-- An action, run from `s`, ends in a value and a state that are as asked, unless it is refused an
allocation. -/
def Achieves (act : WriteM σ α) (s : σ) (post : α → σ → Prop) : Prop :=
  match act s with
  | .ok a s' => post a s'
  | .error fault _ => fault.isAllocation

namespace Achieves

variable {act : WriteM σ α} {next : α → WriteM σ β} {s : σ}

theorem of_ok {a : α} {s' : σ} {post : α → σ → Prop} (hrun : act s = .ok a s') (h : post a s') :
    Achieves act s post := by
  rw [Achieves, hrun]
  exact h

theorem of_error {fault : Fault} {s' : σ} {post : α → σ → Prop} (hrun : act s = .error fault s')
    (h : fault.isAllocation = true) : Achieves act s post := by
  rw [Achieves, hrun]
  exact h

theorem of_eq {act' : WriteM σ α} {s' : σ} {post : α → σ → Prop} (hrun : act s = act' s')
    (h : Achieves act' s' post) : Achieves act s post := by
  unfold Achieves at *
  rwa [hrun]

/-- What an action achieves on a part of a state, it achieves on the whole when it runs there as it
does on the part. -/
theorem of_part {τ : Type} {part : WriteM τ α} {t : τ} {whole : τ → σ} {post : α → σ → Prop}
    (hok : ∀ a t', part t = .ok a t' → act s = .ok a (whole t'))
    (herror : ∀ fault t', part t = .error fault t' → act s = .error fault (whole t'))
    (h : Achieves part t fun a t' => post a (whole t')) : Achieves act s post := by
  cases hpart : part t with
  | ok a t' =>
      refine of_ok (hok a t' hpart) ?_
      simpa only [Achieves, hpart] using h
  | error fault t' =>
      refine of_error (herror fault t' hpart) ?_
      simpa only [Achieves, hpart] using h

theorem post_of_ok {post : α → σ → Prop} (h : Achieves act s post) {a : α} {s' : σ}
    (hrun : act s = .ok a s') : post a s' := by
  unfold Achieves at h
  rwa [hrun] at h

theorem isAllocation_of_error {post : α → σ → Prop} (h : Achieves act s post) {fault : Fault}
    {s' : σ} (hrun : act s = .error fault s') : fault.isAllocation = true := by
  unfold Achieves at h
  rwa [hrun] at h

theorem exists_ok {post : α → σ → Prop} (h : Achieves act s post)
    (hgranted : ∀ fault s', act s = .error fault s' → fault.isAllocation = false) :
    ∃ a s', act s = .ok a s' ∧ post a s' := by
  cases hrun : act s with
  | ok a s' => exact ⟨a, s', rfl, h.post_of_ok hrun⟩
  | error fault s' =>
      have hfault := h.isAllocation_of_error hrun
      rw [hgranted fault s' hrun] at hfault
      contradiction

theorem mono {post weaker : α → σ → Prop} (h : Achieves act s post)
    (himp : ∀ a s', post a s' → weaker a s') : Achieves act s weaker := by
  unfold Achieves at *
  split at h
  · exact himp _ _ h
  · exact h

theorem and {post post' : α → σ → Prop} (h : Achieves act s post) (h' : Achieves act s post') :
    Achieves act s fun a s' => post a s' ∧ post' a s' := by
  unfold Achieves at *
  split at h
  · next hrun =>
      rw [hrun] at h'
      exact ⟨h, h'⟩
  · exact h

/-- What an action achieves is told of the way that it runs. -/
theorem and_run {post : α → σ → Prop} (h : Achieves act s post) :
    Achieves act s fun a s' => post a s' ∧ act s = .ok a s' := by
  unfold Achieves at *
  split at h
  · next hrun => exact ⟨h, hrun⟩
  · exact h

theorem pure {a : α} {post : α → σ → Prop} (h : post a s) :
    Achieves (Pure.pure a : WriteM σ α) s post := h

theorem bind {mid : α → σ → Prop} {post : β → σ → Prop} (h : Achieves act s mid)
    (hnext : ∀ a s', mid a s' → Achieves (next a) s' post) : Achieves (act >>= next) s post := by
  cases hact : act s with
  | ok a s' => exact of_eq (bind_of_ok hact) (hnext a s' (h.post_of_ok hact))
  | error fault s' => exact of_error (bind_of_error hact) (h.isAllocation_of_error hact)

theorem bind_ok {a : α} {s' : σ} {post : β → σ → Prop} (hrun : act s = .ok a s')
    (h : Achieves (next a) s' post) : Achieves (act >>= next) s post :=
  of_eq (bind_of_ok hrun) h

theorem bind_get {next : σ → WriteM σ β} {post : β → σ → Prop} (h : Achieves (next s) s post) :
    Achieves (get >>= next) s post :=
  bind_ok rfl h

/-- An action that is taken under a condition, before the ones that follow in any case. -/
theorem bind_if {c : Prop} [Decidable c] {first : WriteM σ Unit} {next : Unit → WriteM σ β}
    {mid : Unit → σ → Prop} {post : β → σ → Prop}
    (h : Achieves (if c then first else Pure.pure ()) s mid)
    (hnext : ∀ u s', mid u s' → Achieves (next u) s' post) :
    Achieves (if c then first >>= next else next ()) s post := by
  by_cases hc : c
  · rw [if_pos hc] at h ⊢
    exact h.bind hnext
  · rw [if_neg hc] at h ⊢
    exact hnext () s h

theorem map {f : α → β} {post : β → σ → Prop}
    (h : Achieves act s fun a s' => post (f a) s') : Achieves (f <$> act) s post := by
  unfold Achieves at *
  simp only [Functor.map, EStateM.map]
  split at h
  · next hact => simpa only [hact] using h
  · next hact => simpa only [hact] using h

end Achieves

/-- Make a call and go on after it: its fault is told and leaves the state that the call has reached,
but a refused allocation ends the run. -/
def caught (act : WriteM σ α) : WriteM σ (Except Fault α) := fun s =>
  match act s with
  | .ok a s' => .ok (.ok a) s'
  | .error fault s' => if fault.isAllocation then .error fault s' else .ok (.error fault) s'

theorem caught_eq_ok {act : WriteM σ α} {s s' : σ} {a : α} :
    caught act s = .ok (.ok a) s' ↔ act s = .ok a s' := by
  unfold caught
  constructor
  · intro h
    split at h
    · next hrun =>
        cases h
        exact hrun
    · split at h
      · cases h
      · cases h
  · intro h
    simp [h]

theorem Achieves.caught {act : WriteM σ α} {s : σ} {post : α → σ → Prop}
    {told : Except Fault α → σ → Prop} (h : Achieves act s post)
    (himp : ∀ a s', post a s' → told (.ok a) s') : Achieves (WordStream.caught act) s told := by
  unfold Achieves WordStream.caught at *
  cases hrun : act s with
  | ok a s' =>
      rw [hrun] at h
      exact himp a s' h
  | error fault s' =>
      rw [hrun] at h
      have hfault : fault.isAllocation = true := h
      simp [hfault]

theorem Achieves.caught_of_error {act : WriteM σ α} {s s' : σ} {fault : Fault}
    {told : Except Fault α → σ → Prop} (hrun : act s = .error fault s')
    (hfault : fault.isAllocation = false) (h : told (.error fault) s') :
    Achieves (WordStream.caught act) s told := by
  unfold Achieves WordStream.caught
  simpa [hrun, hfault] using h

/-- A first step that can only be refused an allocation has no fault to tell. -/
theorem Achieves.caught_bind {act : WriteM σ α} {next : α → WriteM σ β} {s : σ}
    {mid : α → σ → Prop} {told : Except Fault β → σ → Prop} (h : Achieves act s mid)
    (hnext : ∀ a s', mid a s' → Achieves (WordStream.caught (next a)) s' told) :
    Achieves (WordStream.caught (act >>= next)) s told := by
  cases hact : act s with
  | ok a s' =>
      refine Achieves.of_eq ?_ (hnext a s' (h.post_of_ok hact))
      simp only [WordStream.caught, bind_of_ok hact]
  | error fault s' =>
      have hfault := h.isAllocation_of_error hact
      have hrun : WordStream.caught (act >>= next) s = .error fault s' := by
        simp only [WordStream.caught, bind_of_error hact, hfault, if_true]
      exact Achieves.of_error hrun hfault

theorem Achieves.caught_map {act : WriteM σ α} {s : σ} (f : α → β)
    {told : Except Fault β → σ → Prop}
    (h : Achieves (WordStream.caught act) s fun result s' => told (result.map f) s') :
    Achieves (WordStream.caught (act >>= fun a => Pure.pure (f a))) s told := by
  unfold Achieves WordStream.caught at *
  cases hact : act s with
  | ok a s' =>
      rw [hact] at h
      rw [bind_of_ok hact]
      exact h
  | error fault s' =>
      rw [hact] at h
      rw [bind_of_error hact]
      cases hfault : fault.isAllocation with
      | true => simp [hfault]
      | false => simpa [hfault, Except.map] using h

/-- What is computed of the result of a run holds of the result under its name. -/
theorem of_toOption_map {γ : Type} {result : Except Fault α} {a : α} (f : α → γ) {c : γ}
    (hok : result = .ok a) (h : result.toOption.map f = some c) : f a = c := by
  rw [hok] at h
  exact Option.some.inj h

/-- Run an action on a state that is made for it. -/
def runOn (start : Except Fault σ) (act : WriteM σ α) : Except Fault (α × σ) :=
  match start with
  | .error fault => .error fault
  | .ok s =>
      match act s with
      | .ok a s' => .ok (a, s')
      | .error fault _ => .error fault

theorem exists_of_runOn_ok {start : Except Fault σ} {act : WriteM σ α} {a : α} {s' : σ}
    (h : runOn start act = .ok (a, s')) : ∃ s, start = .ok s ∧ act s = .ok a s' := by
  cases start with
  | error fault => cases h
  | ok s =>
      refine ⟨s, rfl, ?_⟩
      cases hrun : act s with
      | ok b t =>
          simp only [runOn, hrun] at h
          cases h
          rfl
      | error fault t =>
          simp only [runOn, hrun] at h
          cases h

theorem Delivers.runOn {start : Except Fault σ} {act : WriteM σ α} {initial : σ → Prop}
    {post : α → σ → Prop} (hstart : Delivers start initial)
    (hact : ∀ s, initial s → Achieves act s post) :
    Delivers (WordStream.runOn start act) fun result => post result.1 result.2 := by
  cases start with
  | error fault => exact hstart
  | ok s =>
      have h := hact s hstart
      unfold Achieves at h
      cases hrun : act s with
      | ok a s' => simpa only [Delivers, WordStream.runOn, hrun] using h
      | error fault s' => simpa only [Delivers, WordStream.runOn, hrun] using h

end Computations

end WordStream
