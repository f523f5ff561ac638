import StoragePlan.Fault

/-!
How a step with a state and an error ends. `Ends x s done failed` speaks of both outcomes at once, so
that one statement about a step covers what it answers, what it changes and how it fails. The rules
below follow the shape of a `do` block; a proof about a step is a walk along its lines.
-/

namespace StoragePlan

variable {ε σ α β : Type}

/-- From the state `s` the step `x` either succeeds as `done` says or fails as `failed` says. -/
def Ends (x : EStateM ε σ α) (s : σ) (done : α → σ → Prop) (failed : ε → σ → Prop) : Prop :=
  match x s with
  | .ok a s' => done a s'
  | .error e s' => failed e s'

/-- How a run failed and the state that it left. -/
def failure? : EStateM.Result ε σ α → Option (ε × σ)
  | .ok _ _ => none
  | .error e s => some (e, s)

theorem failure?_eq_some {r : EStateM.Result ε σ α} {e : ε} {s : σ} :
    failure? r = some (e, s) ↔ r = .error e s := by
  cases r <;> simp [failure?]

/-- The state that a run without an answer has led to. -/
def success? : EStateM.Result ε σ PUnit → Option σ
  | .ok _ s => some s
  | .error _ _ => none

theorem success?_eq_some {r : EStateM.Result ε σ PUnit} {s : σ} :
    success? r = some s ↔ r = .ok ⟨⟩ s := by
  cases r <;> simp [success?]

namespace Ends

variable {x : EStateM ε σ α} {f : α → EStateM ε σ β} {s s' : σ}
variable {done done' : α → σ → Prop} {failed failed' : ε → σ → Prop}

theorem ok {a : α} (h : Ends x s done failed) (hx : x s = .ok a s') : done a s' := by
  simpa only [Ends, hx] using h

theorem error {e : ε} (h : Ends x s done failed) (hx : x s = .error e s') : failed e s' := by
  simpa only [Ends, hx] using h

/-- Both outcomes, read off the run. -/
theorem of_run (hok : ∀ a s', x s = .ok a s' → done a s')
    (herror : ∀ e s', x s = .error e s' → failed e s') : Ends x s done failed := by
  unfold Ends
  split
  · next a s' hx => exact hok a s' hx
  · next e s' hx => exact herror e s' hx

/-- Every step ends as it runs. -/
theorem run : Ends x s (fun a s' => x s = .ok a s') (fun e s' => x s = .error e s') :=
  of_run (fun _ _ hx => hx) (fun _ _ hx => hx)

theorem mono (h : Ends x s done failed) (hdone : ∀ a s', done a s' → done' a s')
    (hfailed : ∀ e s', failed e s' → failed' e s') : Ends x s done' failed' :=
  of_run (fun a s' hx => hdone a s' (h.ok hx)) (fun e s' hx => hfailed e s' (h.error hx))

theorem and (h : Ends x s done failed) (h' : Ends x s done' failed') :
    Ends x s (fun a s' => done a s' ∧ done' a s') (fun e s' => failed e s' ∧ failed' e s') :=
  of_run (fun _ _ hx => ⟨h.ok hx, h'.ok hx⟩) (fun _ _ hx => ⟨h.error hx, h'.error hx⟩)

theorem pure {a : α} (h : done a s) : Ends (Pure.pure a) s done failed := h

theorem throw {e : ε} (h : failed e s) : Ends (MonadExcept.throw e) s done failed := h

theorem bind {done : β → σ → Prop}
    (h : Ends x s (fun a s' => Ends (f a) s' done failed) failed) :
    Ends (x >>= f) s done failed := by
  unfold Ends at h ⊢
  change match EStateM.bind x f s with
    | .ok b s' => done b s'
    | .error e s' => failed e s'
  unfold EStateM.bind
  split at h <;> simp_all

/-- Two steps in turn, the first of which is known. -/
theorem seq {mid : α → σ → Prop} {done : β → σ → Prop} (hx : Ends x s mid failed')
    (hfailed : ∀ e s', failed' e s' → failed e s')
    (hf : ∀ a s', mid a s' → Ends (f a) s' done failed) : Ends (x >>= f) s done failed :=
  bind (hx.mono hf hfailed)

theorem map {g : α → β} {done : β → σ → Prop}
    (h : Ends x s (fun a s' => done (g a) s') failed) : Ends (g <$> x) s done failed := by
  unfold Ends at h ⊢
  change match EStateM.map g x s with
    | .ok b s' => done b s'
    | .error e s' => failed e s'
  unfold EStateM.map
  split at h <;> simp_all

theorem get {done : σ → σ → Prop} {failed : ε → σ → Prop} (h : done s s) :
    Ends MonadState.get s done failed := h

theorem set {done : PUnit → σ → Prop} {failed : ε → σ → Prop} (h : done ⟨⟩ s') :
    Ends (MonadStateOf.set s') s done failed := h

theorem modify {g : σ → σ} {done : PUnit → σ → Prop} {failed : ε → σ → Prop}
    (h : done ⟨⟩ (g s)) : Ends (modify g) s done failed := h

end Ends

/-! ### Runs in turn -/

section Runs

variable {x : EStateM ε σ α} {f : α → EStateM ε σ β} {s s' : σ}

theorem bind_of_ok {a : α} (h : x s = .ok a s') : (x >>= f) s = f a s' := by
  change EStateM.bind x f s = f a s'
  simp [EStateM.bind, h]

theorem bind_of_error {e : ε} (h : x s = .error e s') : (x >>= f) s = .error e s' := by
  change EStateM.bind x f s = .error e s'
  simp [EStateM.bind, h]

/-- Where two steps in turn succeed, both do. -/
theorem bind_eq_ok {b : β} (h : (x >>= f) s = .ok b s') :
    ∃ a s₁, x s = .ok a s₁ ∧ f a s₁ = .ok b s' := by
  cases hx : x s with
  | ok a s₁ => exact ⟨a, s₁, rfl, (bind_of_ok hx).symm.trans h⟩
  | error e s₁ => cases (bind_of_error hx).symm.trans h

theorem bind_get {f : σ → EStateM ε σ β} : (MonadState.get >>= f) s = f s s := rfl

theorem map_run_congr {y : EStateM ε σ α} {g : α → β} (h : x s = y s') :
    (g <$> x) s = (g <$> y) s' := by
  change EStateM.map g x s = EStateM.map g y s'
  rw [EStateM.map, EStateM.map, h]

theorem map_of_ok {a : α} {g : α → β} (h : x s = .ok a s') : (g <$> x) s = .ok (g a) s' :=
  map_run_congr (y := pure a) h

theorem map_of_error {e : ε} {g : α → β} (h : x s = .error e s') : (g <$> x) s = .error e s' :=
  map_run_congr (y := throw e) h

end Runs

end StoragePlan
