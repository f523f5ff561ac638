import StoragePlan.Proofs.Calls

/-!
The moments of the check of a function, from its parameters to its last statement. The stack grows and
shrinks meanwhile; but what leaves the stack goes to the frame of the function, so the two together
only grow, and at the end of the body they are more than the stack has been at any moment.
-/

namespace StoragePlan

namespace Check

variable {s s' s'' : Session} {d : FunctionDef}

/-- The check of a function up to some of its parameters. -/
def entering (d : FunctionDef) (ps : List Field) : Check (String × Option ValueType) := do
  let id ← ofExcept (nameOf d.name)
  let returns ← d.returns.mapM resolve
  modify fun s => { s with body := some ⟨id, returns, []⟩ }
  openScope
  ps.forM pushParameter
  return (id, returns)

/-- The parameters come after all else. -/
theorem entering_ends {ps : List Field} {done : String × Option ValueType → Session → Prop}
    (h : ∀ id returns, nameOf d.name = .ok id →
      Ends (ps.forM pushParameter) (opened (entered ⟨id, returns, []⟩ s))
        (fun _ s' => done (id, returns) s') (fun _ _ => True)) :
    Ends (entering d ps) s done (fun _ _ => True) := by
  refine (ofExcept_ends _).seq (fun _ _ _ => trivial) ?_
  rintro id s ⟨rfl, hid⟩
  refine (returns_ends d.returns).seq (fun _ _ _ => trivial) ?_
  rintro returns s rfl
  refine Ends.bind (Ends.modify (Ends.bind (openScope_ends ?_)))
  exact (h id returns hid).seq (fun _ _ _ => trivial) fun _ s' h => Ends.pure h

theorem grown_of_entering {ps : List Field} {r : String × Option ValueType}
    (h : entering d ps s = .ok r s') : ∃ bs, Grown bs (opened (entered ⟨r.1, r.2, []⟩ s)) s' := by
  have hends : Ends (entering d ps) s
      (fun r s' => ∃ bs, Grown bs (opened (entered ⟨r.1, r.2, []⟩ s)) s') (fun _ _ => True) :=
    entering_ends fun id returns _ =>
      (Grows.forM grows_pushParameter ps _ rfl).mono (fun _ _ h => h) (fun _ _ _ => trivial)
  exact hends.ok h

/-- More parameters follow the first ones. -/
theorem entering_append (d : FunctionDef) (ps rest : List Field) :
    entering d (ps ++ rest) = (do
      let r ← entering d ps
      rest.forM pushParameter
      return r) := by
  simp [entering, List.forM_append]

/-- The end of the check of a function: its scope is closed and its frame is kept. -/
def leaving (d : FunctionDef) (r : String × Option ValueType) : Check Unit :=
  if r.2.isSome && !d.body.alwaysReturns then
    fail d.body.closing (.missingReturn r.1)
  else do
    closeScope
    modify fun s =>
      { s with
        body := none
        frames := s.frames ++ (s.body.map fun b => ⟨b.id, b.released⟩).toList }

theorem functionBody_eq (d : FunctionDef) :
    functionBody d = (do
      let r ← entering d d.params
      stmts d.body.body
      leaving d r) := by
  simp [functionBody, entering, leaving]

theorem bodyCalls_eq (d : FunctionDef) :
    bodyCalls d = [do let _ ← entering d d.params; return .stmts d.body.body] := by
  simp [bodyCalls, entering]

end Check

/-- A session in the course of the check of a function that begins in the session `s₁`: one in which
some parameters are on the stack, or one in which some part of the body is checked. -/
inductive During (d : FunctionDef) (s₁ : Session) : Session → Prop where
  | parameters {ps rest : List Field} {r : String × Option ValueType} {s : Session}
    (hp : d.params = ps ++ rest) (h : Check.entering d ps s₁ = .ok r s) : During d s₁ s
  | tasks {t : Task} {s : Session} (h : Reaches (.body d) s₁ t s) : During d s₁ s

open Check in
/-- The stack fits at every moment if it does when the check begins. -/
theorem During.fits {d : FunctionDef} {s₁ s : Session} (h : During d s₁ s) (hs : s₁.body = none)
    (hf : s₁.memory.Fits) : s.memory.Fits := by
  cases h with
  | parameters _ h =>
    obtain ⟨bs, hg⟩ := grown_of_entering h
    exact hg.fits hf
  | tasks h => exact (h.leads hs).1.fits hf

namespace Check

variable {s s' s'' : Session} {d : FunctionDef}

/-! ### What stack and frame hold together -/

/-- The bytes on the stack and those that closed scopes have released. -/
def weight (s : Session) : Nat :=
  bytesOf s.memory.stack + bytesOf (((s.body.map (·.released)).getD []).map (·.element))

theorem Noted.weight_eq (h : Noted s s') : weight s' = weight s := by
  simp only [weight, h.memory_eq, h.same]

theorem Grown.weight_le {bs : List Binding} (h : Grown bs s s') (hb : s.body.isSome = true) :
    weight s ≤ weight s' := by
  obtain ⟨b, hb⟩ := Option.isSome_iff_exists.mp hb
  obtain ⟨ps, hps⟩ := h.body
  simp only [weight, h.memory, hps, hb, Tracker.gain, Tracker.grow, Body.release,
    Option.isSome_some, if_true, Option.map_some, Option.getD_some, List.map_append, bytesOf_append]
  omega

/-- A scope that closes moves bytes from the stack to the frame. -/
theorem weight_of_closeScope (h : closeScope s = .ok () s') (hb : s.body.isSome = true) :
    weight s' = weight s := by
  obtain ⟨b, hb⟩ := Option.isSome_iff_exists.mp hb
  cases h
  simp only [weight, hb, Option.map_some, Option.getD_some, List.map_append, bytesOf_append]
  cases hs : s.memory.scopes with
  | nil => simp [Tracker.closeScope, hs]
  | cons c outer =>
    have hsplit : bytesOf (s.memory.stack.take c.elements) +
        bytesOf (s.memory.stack.drop c.elements) = bytesOf s.memory.stack := by
      rw [← bytesOf_append, List.take_append_drop]
    simp only [Tracker.closeScope, hs, Tracker.map_element_place]
    omega

end Check

theorem Check.Grows.weight_le {y : Check Unit} (hy : Check.Grows true y) {s s' : Session}
    (hb : s.body.isSome = true) (h : y s = .ok () s') :
    Check.weight s ≤ Check.weight s' ∧ s'.body.isSome = true := by
  obtain ⟨bs, hg⟩ := (hy s hb).ok h
  exact ⟨hg.weight_le hb, hg.isSome_body.trans hb⟩

namespace Task

open Check (weight)

variable {s s' e : Session} {t t' : Task} {x : Check Task}

/-- The check of a part of a body leads from one session to another. Of an expression it only matters
that this adds weight. -/
def Done (s s' : Session) : Task → Prop
  | .block b => Check.block b s = .ok () s'
  | .stmts ss => Check.stmts ss s = .ok () s'
  | .stmt st => Check.stmt st s = .ok () s'
  | .expr _ | .arguments _ _ _ _ => weight s ≤ weight s'
  | _ => False

theorem Done.weight_le (h : t.Done s e) (hs : t.Suits s) : weight s ≤ weight e := by
  cases t with
  | block b => exact ((Check.grows_block b).weight_le hs h).1
  | stmts ss => exact ((Check.grows_stmts ss).weight_le hs h).1
  | stmt st => exact ((Check.grows_stmt st).weight_le hs h).1
  | expr _ => exact h
  | arguments _ _ _ _ => exact h
  | _ => cases h

/-- A call into an expression adds no weight. -/
theorem done_of_asks (hx : Check.Asks x s) (hr : x s = .ok t' s') (he : weight s ≤ weight e) :
    t'.Done s' e := by
  obtain ⟨hn, ht⟩ := hx.ok hr
  rw [← hn.weight_eq] at he
  cases t' with
  | expr _ => exact he
  | arguments _ _ _ _ => exact he
  | _ => cases ht

/-- Where the check of a part of a body succeeds, the checks that it calls succeed, each with no more
weight than there is at the end. -/
theorem Done.call (h : t.Done s e) (hs : t.Suits s) (hx : x ∈ t.calls) (hr : x s = .ok t' s') :
    ∃ e', t'.Done s' e' ∧ weight e' ≤ weight e := by
  cases t with
  | block b =>
    obtain ⟨o, c, ss⟩ := b
    obtain rfl := List.mem_singleton.mp hx
    cases hr
    rw [Done, Check.block] at h
    have hafter : (do Check.stmts ss; Check.closeScope) (Check.opened s) = .ok () e := h
    obtain ⟨_, e', hrun, hclose⟩ := bind_eq_ok hafter
    have hb : e'.body.isSome = true :=
      ((Check.grows_stmts ss).weight_le (s := Check.opened s) hs hrun).2
    exact ⟨e', hrun, Nat.le_of_eq (Check.weight_of_closeScope hclose hb).symm⟩
  | stmts body =>
    cases body with
    | nil => cases hx
    | cons st rest =>
      rw [Done, Check.stmts] at h
      obtain ⟨_, e', hst, hrest⟩ := bind_eq_ok h
      have hb : e'.body.isSome = true := ((Check.grows_stmt st).weight_le hs hst).2
      simp only [Task.calls, List.mem_cons, List.not_mem_nil, or_false] at hx
      rcases hx with rfl | rfl
      · cases hr
        exact ⟨e', hst, ((Check.grows_stmts rest).weight_le hb hrest).1⟩
      · cases (bind_of_ok hst).symm.trans hr
        exact ⟨e, hrest, Nat.le_refl _⟩
  | stmt st =>
    rcases Check.stmtCalls_cases st hx with hasks | ⟨before, b, after, rfl, hst, hbefore, hafter⟩
    · exact ⟨e, done_of_asks (hasks s) hr (h.weight_le hs), Nat.le_refl _⟩
    · rw [Done, hst] at h
      obtain ⟨_, s₁, hfirst, h⟩ := bind_eq_ok h
      cases (bind_of_ok hfirst).symm.trans hr
      obtain ⟨_, e', hblock, hrest⟩ := bind_eq_ok h
      have hb' : s'.body.isSome = true := (hbefore.weight_le hs hfirst).2
      have hb : e'.body.isSome = true := ((Check.grows_block b).weight_le hb' hblock).2
      exact ⟨e', hblock, (hafter.weight_le hb hrest).1⟩
  | expr _ => exact ⟨e, done_of_asks (Task.calls_asks rfl x hx) hr h, Nat.le_refl _⟩
  | arguments _ _ _ _ => exact ⟨e, done_of_asks (Task.calls_asks rfl x hx) hr h, Nat.le_refl _⟩
  | _ => cases h

end Task

open Check in
/-- No session that is reached has more weight than there is at the end. -/
theorem Reaches.weight_le {t t' : Task} {s s' e : Session} (h : Reaches t s t' s') (hs : t.Suits s)
    (hd : t.Done s e) : weight s' ≤ weight e := by
  induction h generalizing e with
  | here => exact hd.weight_le hs
  | call hx hr _ ih =>
    obtain ⟨e', hd', hle⟩ := hd.call hs hx hr
    exact Nat.le_trans (ih ((Task.calls_orderly _ hs _ hx).ok hr).2 hd') hle

open Check in
/-- At the end of its body, stack and frame of a function hold as many bytes as the stack at any
moment. -/
theorem During.weight_le {d : FunctionDef} {s₁ s₂ s₃ s : Session} {r : String × Option ValueType}
    (h : During d s₁ s) (hs : s₁.body = none) (hparams : entering d d.params s₁ = .ok r s₂)
    (hbody : stmts d.body.body s₂ = .ok () s₃) : bytesOf s.memory.stack ≤ weight s₃ := by
  obtain ⟨bs, hg⟩ := grown_of_entering hparams
  have hs₂ : s₂.body.isSome = true := hg.isSome_body
  have hend : weight s₂ ≤ weight s₃ := ((grows_stmts _).weight_le hs₂ hbody).1
  have hle : weight s ≤ weight s₃ := by
    cases h with
    | @parameters ps rest r' _ hp h =>
      rw [hp, entering_append, bind_of_ok h] at hparams
      obtain ⟨_, s₂', hrest, hr⟩ := bind_eq_ok hparams
      cases hr
      obtain ⟨bs', hg'⟩ := grown_of_entering h
      have hb : s.body.isSome = true := hg'.isSome_body
      exact Nat.le_trans ((Grows.forM grows_pushParameter rest).weight_le hb hrest).1 hend
    | tasks h =>
      cases h with
      | here =>
        refine Nat.le_trans ?_ hend
        have hstart : weight s₁ = weight (opened (entered ⟨r.1, r.2, []⟩ s₁)) := by
          simp [weight, opened, entered, hs, Tracker.openScope]
        exact hstart ▸ hg.weight_le rfl
      | call hx hr h =>
        rw [Task.calls, bodyCalls_eq, List.mem_singleton] at hx
        subst hx
        cases (bind_of_ok hparams).symm.trans hr
        exact h.weight_le hs₂ hbody
  exact Nat.le_trans (Nat.le_add_right _ _) hle

end StoragePlan
