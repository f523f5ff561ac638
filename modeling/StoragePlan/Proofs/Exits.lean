import StoragePlan.Proofs.RecordedTypes

/-!
How the body of a function is left. Statements get a meaning that only follows control: a branch may
go either way and a loop may go round any number of times. No execution of a block that returns on
every path falls off its end; and every `return` that an execution can end in was checked against
the return type of the function. So a function with a return type always answers a value of it.
-/

namespace StoragePlan

/-! ### Executions -/

/-- How a part of a body is left: into what follows it, or out of the function by a `return`. -/
inductive Exit where
  | through
  | returned (token : Token) (value : Option Expr)

mutual

/-- The executions of a statement, as far as control is concerned. -/
inductive Stmt.Runs : Stmt → Exit → Prop where
  | varDecl (d : VariableDecl) : Stmt.Runs (.varDecl d) .through
  | constDecl (d : ConstantDecl) : Stmt.Runs (.constDecl d) .through
  | typeDef (d : TypeDef) : Stmt.Runs (.typeDef d) .through
  | assign (target : Expr) (op : Token) (value : Expr) :
    Stmt.Runs (.assign target op value) .through
  | expr (e : Expr) : Stmt.Runs (.expr e) .through
  | ret (token : Token) (value : Option Expr) : Stmt.Runs (.ret token value) (.returned token value)
  | block {b : Block} {x : Exit} (h : Block.Runs b x) : Stmt.Runs (.block b) x
  | thenBlock {token : Token} {c : Expr} {b : Block} {elseBlock : Option Block} {x : Exit}
    (h : Block.Runs b x) : Stmt.Runs (.branch token c b elseBlock) x
  | elseBlock {token : Token} {c : Expr} {thenBlock b : Block} {x : Exit} (h : Block.Runs b x) :
    Stmt.Runs (.branch token c thenBlock (some b)) x
  | noElse (token : Token) (c : Expr) (thenBlock : Block) :
    Stmt.Runs (.branch token c thenBlock none) .through
  | done (token : Token) (c : Expr) (body : Block) : Stmt.Runs (.loop token c body) .through
  | again {token : Token} {c : Expr} {body : Block} {x : Exit} (h : Block.Runs body .through)
    (hrest : Stmt.Runs (.loop token c body) x) : Stmt.Runs (.loop token c body) x
  | leave {token : Token} {c : Expr} {body : Block} {t : Token} {v : Option Expr}
    (h : Block.Runs body (.returned t v)) : Stmt.Runs (.loop token c body) (.returned t v)

inductive Block.Runs : Block → Exit → Prop where
  | mk {opening closing : Position} {body : List Stmt} {x : Exit} (h : Stmt.RunsAll body x) :
    Block.Runs ⟨opening, closing, body⟩ x

/-- The executions of statements in turn, up to the first that leaves. -/
inductive Stmt.RunsAll : List Stmt → Exit → Prop where
  | nil : Stmt.RunsAll [] .through
  | next {st : Stmt} {rest : List Stmt} {x : Exit} (h : Stmt.Runs st .through)
    (hrest : Stmt.RunsAll rest x) : Stmt.RunsAll (st :: rest) x
  | leave {st : Stmt} {rest : List Stmt} {t : Token} {v : Option Expr}
    (h : Stmt.Runs st (.returned t v)) : Stmt.RunsAll (st :: rest) (.returned t v)

end

theorem Block.Runs.body {b : Block} {x : Exit} (h : b.Runs x) : Stmt.RunsAll b.body x := by
  cases h with
  | mk h => exact h

/-- What follows a statement is only reached through it. -/
theorem Stmt.exists_runsAll_cons {st : Stmt} {rest : List Stmt} (h : ∃ x, st.Runs x)
    (hrest : ∃ x, Stmt.RunsAll rest x) : ∃ x, Stmt.RunsAll (st :: rest) x := by
  obtain ⟨x, h⟩ := h
  cases x with
  | through =>
    obtain ⟨x, hrest⟩ := hrest
    exact ⟨x, .next h hrest⟩
  | returned t v => exact ⟨_, .leave h⟩

mutual

theorem Stmt.exists_runs : ∀ st : Stmt, ∃ x, st.Runs x
  | .varDecl d => ⟨_, .varDecl d⟩
  | .constDecl d => ⟨_, .constDecl d⟩
  | .typeDef d => ⟨_, .typeDef d⟩
  | .assign target op value => ⟨_, .assign target op value⟩
  | .expr e => ⟨_, .expr e⟩
  | .ret token value => ⟨_, .ret token value⟩
  | .block b => b.exists_runs.imp fun _ h => .block h
  | .branch _ _ thenBlock _ => thenBlock.exists_runs.imp fun _ h => .thenBlock h
  | .loop token c body => ⟨_, .done token c body⟩

/-- Every block has executions. -/
theorem Block.exists_runs : ∀ b : Block, ∃ x, b.Runs x
  | ⟨_, _, body⟩ => (Stmt.exists_runsAll body).imp fun _ h => .mk h

theorem Stmt.exists_runsAll : ∀ body : List Stmt, ∃ x, Stmt.RunsAll body x
  | [] => ⟨_, .nil⟩
  | st :: rest => Stmt.exists_runsAll_cons st.exists_runs (Stmt.exists_runsAll rest)

end

/-! ### Return on every path -/

mutual

theorem Stmt.not_through : ∀ st : Stmt, st.alwaysReturns = true → ¬ st.Runs .through
  | .ret _ _, _ => by
    intro hr
    cases hr
  | .block b, h => by
    intro hr
    cases hr with
    | block hb => exact b.not_through h hb
  | .branch _ _ thenBlock (some elseBlock), h => by
    obtain ⟨hthen, helse⟩ := Bool.and_eq_true_iff.mp h
    intro hr
    cases hr with
    | thenBlock hb => exact thenBlock.not_through hthen hb
    | elseBlock hb => exact elseBlock.not_through helse hb
  | .branch _ _ _ none, h => by cases h
  | .loop _ _ _, h => by cases h
  | .varDecl _, h => by cases h
  | .constDecl _, h => by cases h
  | .typeDef _, h => by cases h
  | .assign _ _ _, h => by cases h
  | .expr _, h => by cases h

/-- No execution of a block that returns on every path falls through. -/
theorem Block.not_through : ∀ b : Block, b.alwaysReturns = true → ¬ b.Runs .through
  | ⟨_, _, body⟩, h => by
    intro hr
    cases hr with
    | mk hbody => exact Stmt.not_through_last body h hbody

theorem Stmt.not_through_last : ∀ body : List Stmt, lastReturns body = true →
    ¬ Stmt.RunsAll body .through
  | [], h => by cases h
  | [st], h => by
    intro hr
    cases hr with
    | next hst _ => exact st.not_through h hst
  | _ :: st :: rest, h => by
    intro hr
    cases hr with
    | next _ hrest => exact Stmt.not_through_last (st :: rest) h hrest

end

/-! ### Checks that succeed -/

namespace Task

open Check

variable {s s' : Session} {t t' : Task} {x : Check Task}

/-- The check of a task succeeds from a session. Parts of expressions are not spoken of. -/
def Accepted (s : Session) : Task → Prop
  | .file f => ∃ e, Check.file f s = .ok () e
  | .items is => ∃ e, is.forM Check.item s = .ok () e
  | .item i => ∃ e, Check.item i s = .ok () e
  | .bodies ds => ∃ e, ds.forM functionBody s = .ok () e
  | .body d => ∃ e, functionBody d s = .ok () e
  | .block b => ∃ e, Check.block b s = .ok () e
  | .stmts ss => ∃ e, Check.stmts ss s = .ok () e
  | .stmt st => ∃ e, Check.stmt st s = .ok () e
  | .expr _ | .arguments _ _ _ _ => True

theorem accepted_of_isExpr (h : t.isExpr = true) : t.Accepted s := by
  cases t with
  | expr e => trivial
  | arguments callee number args params => trivial
  | _ => cases h

/-- Where two checks in turn succeed, so do the tasks of each. -/
theorem accepted_in_turn {y z : Check Unit} {t₁ t₂ : Task} {e : Session}
    (hrun : (do y; z) s = .ok () e) (hx : x ∈ [return t₁, do y; return t₂])
    (hr : x s = .ok t' s') (hfirst : ∀ s₁, y s = .ok () s₁ → t₁.Accepted s)
    (hrest : ∀ s₁, z s₁ = .ok () e → t₂.Accepted s₁) : t'.Accepted s' := by
  obtain ⟨_, s₁, hy, hz⟩ := bind_eq_ok hrun
  simp only [List.mem_cons, List.not_mem_nil, or_false] at hx
  rcases hx with rfl | rfl
  · cases hr
    exact hfirst s₁ hy
  · cases (bind_of_ok hy).symm.trans hr
    exact hrest _ hz

/-- Where the check of a task succeeds, so do the checks that it calls. -/
theorem Accepted.call (h : t.Accepted s) (hx : x ∈ t.calls) (hr : x s = .ok t' s') :
    t'.Accepted s' := by
  cases t with
  | file f =>
    obtain ⟨e, hrun⟩ := h
    obtain ⟨_, s₁, htypes, hrun⟩ := bind_eq_ok hrun
    obtain ⟨_, s₂, hitems, hbodies⟩ := bind_eq_ok hrun
    simp only [Task.calls, List.mem_cons, List.not_mem_nil, or_false] at hx
    rcases hx with rfl | rfl
    · cases (bind_of_ok htypes).symm.trans hr
      exact ⟨s₂, hitems⟩
    · cases ((bind_of_ok htypes).trans (bind_of_ok hitems)).symm.trans hr
      exact ⟨e, hbodies⟩
  | items is =>
    cases is with
    | nil => cases hx
    | cons i is =>
      obtain ⟨e, hrun⟩ := h
      exact accepted_in_turn hrun hx hr (fun s₁ h => ⟨s₁, h⟩) fun _ h => ⟨e, h⟩
  | item i => exact accepted_of_isExpr ((itemCalls_asks i x hx).ok hr).2
  | bodies ds =>
    cases ds with
    | nil => cases hx
    | cons d ds =>
      obtain ⟨e, hrun⟩ := h
      exact accepted_in_turn hrun hx hr (fun s₁ h => ⟨s₁, h⟩) fun _ h => ⟨e, h⟩
  | body d =>
    obtain ⟨e, hrun⟩ := h
    rw [functionBody_eq] at hrun
    obtain ⟨r, s₁, hparams, hrun⟩ := bind_eq_ok hrun
    obtain ⟨_, s₂, hstmts, _⟩ := bind_eq_ok hrun
    rw [Task.calls, bodyCalls_eq, List.mem_singleton] at hx
    subst hx
    cases (bind_of_ok hparams).symm.trans hr
    exact ⟨s₂, hstmts⟩
  | block b =>
    obtain ⟨o, c, ss⟩ := b
    obtain rfl := List.mem_singleton.mp hx
    cases hr
    obtain ⟨e, hrun⟩ := h
    rw [Check.block] at hrun
    have hafter : (do Check.stmts ss; Check.closeScope) (Check.opened s) = .ok () e := hrun
    obtain ⟨_, s₁, hstmts, _⟩ := bind_eq_ok hafter
    exact ⟨s₁, hstmts⟩
  | stmts ss =>
    cases ss with
    | nil => cases hx
    | cons st ss =>
      obtain ⟨e, hrun⟩ := h
      rw [Check.stmts] at hrun
      exact accepted_in_turn hrun hx hr (fun s₁ h => ⟨s₁, h⟩) fun _ h => ⟨e, h⟩
  | stmt st =>
    rcases stmtCalls_cases st hx with hasks | ⟨before, b, after, rfl, hst, _, _⟩
    · exact accepted_of_isExpr ((hasks s).ok hr).2
    · obtain ⟨e, hrun⟩ := h
      rw [hst] at hrun
      obtain ⟨_, s₁, hbefore, hrun⟩ := bind_eq_ok hrun
      obtain ⟨_, s₂, hblock, _⟩ := bind_eq_ok hrun
      cases (bind_of_ok hbefore).symm.trans hr
      exact ⟨s₂, hblock⟩
  | expr e => exact accepted_of_isExpr ((Task.calls_asks rfl x hx).ok hr).2
  | arguments _ _ _ _ => exact accepted_of_isExpr ((Task.calls_asks rfl x hx).ok hr).2

end Task

theorem Reaches.accepted {t t' : Task} {s s' : Session} (h : Reaches t s t' s')
    (ha : t.Accepted s) : t'.Accepted s' :=
  h.keep (P := fun t s => t.Accepted s) (fun _ _ _ _ _ h => h.call) ha

/-! ### Where a body returns -/

section Reached

open Check

variable {s : Session} {token : Token} {value : Option Expr}

/-- The check of a task comes to a `return`. -/
def Task.Finds (token : Token) (value : Option Expr) (s : Session) (t : Task) : Prop :=
  ∃ s', Reaches t s (.stmt (.ret token value)) s'

theorem Task.Finds.call {t t' : Task} {s' : Session} {x : Check Task} (hx : x ∈ t.calls)
    (hr : x s = .ok t' s') (h : t'.Finds token value s') : t.Finds token value s := by
  obtain ⟨s'', h⟩ := h
  exact ⟨s'', .call hx hr h⟩

/-- The check of a statement comes to what it finds in a block of the statement. -/
theorem Task.Finds.of_block {st : Stmt} (before : Check Unit) (b : Block) (after : Check Unit)
    (hst : Check.stmt st = (do before; Check.block b; after))
    (hx : (do before; return Task.block b) ∈ stmtCalls st) (ha : (Task.stmt st).Accepted s)
    (hb : ∀ s', (Task.block b).Accepted s' → (Task.block b).Finds token value s') :
    (Task.stmt st).Finds token value s := by
  obtain ⟨e, hrun⟩ := ha
  rw [hst] at hrun
  obtain ⟨_, s₁, hbefore, hrun⟩ := bind_eq_ok hrun
  obtain ⟨_, s₂, hblock, _⟩ := bind_eq_ok hrun
  exact .call hx (bind_of_ok hbefore) (hb s₁ ⟨s₂, hblock⟩)

mutual

theorem Stmt.Runs.finds : ∀ {st : Stmt} {x : Exit} {s : Session}, st.Runs x →
    x = .returned token value → (Task.stmt st).Accepted s → (Task.stmt st).Finds token value s
  | _, _, s, .ret _ _, hx, _ => by
    cases hx
    exact ⟨s, .here _ _⟩
  | _, _, s, @Stmt.Runs.block b _ h, hx, ha => by
    apply Task.Finds.of_block (pure ()) b (pure ()) _ _ ha fun s' => h.finds hx
    · simp [stmt]
    · simp [stmtCalls]
  | _, _, s, @Stmt.Runs.thenBlock _ c b elseBlock _ h, hx, ha => by
    cases elseBlock with
    | none =>
      apply Task.Finds.of_block (condition c) b (pure ()) _ _ ha fun s' => h.finds hx
      · simp [stmt]
      · simp [stmtCalls]
    | some elseBlock =>
      apply Task.Finds.of_block (condition c) b (block elseBlock) _ _ ha fun s' => h.finds hx
      · simp [stmt]
      · simp [stmtCalls]
  | _, _, s, @Stmt.Runs.elseBlock _ c thenBlock b _ h, hx, ha => by
    apply Task.Finds.of_block (do condition c; block thenBlock) b (pure ()) _ _ ha
      fun s' => h.finds hx
    · simp [stmt]
    · simp [stmtCalls]
  -- the check goes into the body of a loop once, whichever round returns
  | _, _, s, .again _ hrest, hx, ha => hrest.finds hx ha
  | _, _, s, @Stmt.Runs.leave _ c b _ _ h, hx, ha => by
    apply Task.Finds.of_block (condition c) b (pure ()) _ _ ha fun s' => h.finds hx
    · simp [stmt]
    · simp [stmtCalls]
  | _, _, _, .varDecl _, hx, _ => by cases hx
  | _, _, _, .constDecl _, hx, _ => by cases hx
  | _, _, _, .typeDef _, hx, _ => by cases hx
  | _, _, _, .assign _ _ _, hx, _ => by cases hx
  | _, _, _, .expr _, hx, _ => by cases hx
  | _, _, _, .noElse _ _ _, hx, _ => by cases hx
  | _, _, _, .done _ _ _, hx, _ => by cases hx

theorem Block.Runs.finds : ∀ {b : Block} {x : Exit} {s : Session}, b.Runs x →
    x = .returned token value → (Task.block b).Accepted s → (Task.block b).Finds token value s
  | _, _, s, @Block.Runs.mk o c body _ h, hx, ha => by
    have hcall : (do openScope; return Task.stmts body) ∈ (Task.block ⟨o, c, body⟩).calls :=
      List.mem_singleton.mpr rfl
    exact .call hcall rfl (h.finds hx (ha.call hcall rfl))

theorem Stmt.RunsAll.finds : ∀ {body : List Stmt} {x : Exit} {s : Session}, Stmt.RunsAll body x →
    x = .returned token value → (Task.stmts body).Accepted s →
    (Task.stmts body).Finds token value s
  | _, _, s, @Stmt.RunsAll.leave st rest _ _ h, hx, ha => by
    have hcall : (return Task.stmt st) ∈ (Task.stmts (st :: rest)).calls := List.mem_cons_self
    exact .call hcall rfl (h.finds hx (ha.call hcall rfl))
  | _, _, s, @Stmt.RunsAll.next st rest _ _ hrest, hx, ha => by
    have hcall : (do stmt st; return Task.stmts rest) ∈ (Task.stmts (st :: rest)).calls :=
      List.mem_cons_of_mem _ List.mem_cons_self
    obtain ⟨e, hrun⟩ := ha
    rw [stmts] at hrun
    obtain ⟨_, s₁, hfirst, hrun⟩ := bind_eq_ok hrun
    exact .call hcall (bind_of_ok hfirst) (hrest.finds hx ⟨e, hrun⟩)
  | _, _, _, .nil, hx, _ => by cases hx

end

end Reached

/-! ### The type that a function returns -/

namespace Check

variable {s s' : Session}

/-- The return type of the function that is being checked, if one is. -/
def returnsIn (s : Session) : Option (Option ValueType) := s.body.map (·.returns)

theorem Grown.returnsIn {bs : List Binding} (h : Grown bs s s') : returnsIn s' = returnsIn s := by
  obtain ⟨ps, hps⟩ := h.body
  rw [Check.returnsIn, Check.returnsIn, hps, Option.map_map]
  rfl

theorem Grows.returnsIn {y : Check Unit} (hy : Grows true y) (hb : s.body.isSome = true)
    (h : y s = .ok () s') : returnsIn s' = returnsIn s := by
  obtain ⟨bs, hg⟩ := (hy s hb).ok h
  exact hg.returnsIn

theorem Asks.returnsIn {x : Check Task} {t : Task} (hx : Asks x s) (h : x s = .ok t s') :
    returnsIn s' = returnsIn s :=
  ((hx.ok h).1).toGrown.returnsIn

/-- The body begins with the type that the annotation of the function stands for. -/
theorem returnsIn_of_entering {d : FunctionDef} {a : Annotation} {ps : List Field}
    {r : String × Option ValueType} (ha : d.returns = some a)
    (h : entering d ps s = .ok r s') :
    ∃ expected, r.2 = some expected ∧ resolve a s = .ok expected s ∧
      returnsIn s' = some (some expected) := by
  obtain ⟨bs, hg⟩ := grown_of_entering h
  have hbody : returnsIn s' = some r.2 := hg.returnsIn
  obtain ⟨id, s₁, hid, hrest⟩ := bind_eq_ok h
  obtain ⟨rfl, _⟩ := ofExcept_eq_ok hid
  obtain ⟨returns, s₂, hreturns, hrest⟩ := bind_eq_ok hrest
  obtain ⟨_, s₃, _, hrest⟩ := bind_eq_ok hrest
  obtain ⟨_, s₄, _, hrest⟩ := bind_eq_ok hrest
  obtain ⟨_, s₅, _, hrest⟩ := bind_eq_ok hrest
  cases hrest
  rw [ha] at hreturns
  have hresolve : Ends (some <$> resolve a) s₁
      (fun returns _ => ∃ expected, returns = some expected ∧ resolve a s₁ = .ok expected s₁)
      (fun _ _ => True) := by
    refine Ends.map (((resolve_ends a).and Ends.run).mono ?_ fun _ _ _ => trivial)
    rintro expected s ⟨⟨rfl, _⟩, hrun⟩
    exact ⟨expected, rfl, hrun⟩
  obtain ⟨expected, rfl, hrun⟩ := hresolve.ok hreturns
  exact ⟨expected, rfl, hrun, hbody⟩

end Check

namespace Task

open Check

variable {s s' : Session} {t t' : Task} {x : Check Task} {returns : Option ValueType}

/-- The task is part of a body, in a session in which the function returns `returns`. -/
def Within (returns : Option ValueType) (s : Session) : Task → Prop
  | .block _ | .stmts _ | .stmt _ | .expr _ | .arguments _ _ _ _ => returnsIn s = some returns
  | _ => False

theorem within_of_isExpr (h : t.isExpr = true) (hs : returnsIn s = some returns) :
    t.Within returns s := by
  cases t with
  | expr e => exact hs
  | arguments callee number args params => exact hs
  | _ => cases h

theorem isSome_body_of_returnsIn (h : returnsIn s = some returns) : s.body.isSome = true := by
  obtain ⟨b, hb, _⟩ := Option.map_eq_some_iff.mp h
  rw [hb]
  rfl

/-- The calls inside of a body stay in it and keep the type that the function returns. -/
theorem Within.call (h : t.Within returns s) (hx : x ∈ t.calls) (hr : x s = .ok t' s') :
    t'.Within returns s' := by
  cases t with
  | block b =>
    obtain ⟨o, c, ss⟩ := b
    obtain rfl := List.mem_singleton.mp hx
    cases hr
    exact h
  | stmts ss =>
    cases ss with
    | nil => cases hx
    | cons st ss =>
      simp only [Task.calls, List.mem_cons, List.not_mem_nil, or_false] at hx
      rcases hx with rfl | rfl
      · cases hr
        exact h
      · obtain ⟨_, s₁, hst, hr⟩ := bind_eq_ok hr
        cases hr
        exact ((grows_stmt st).returnsIn (isSome_body_of_returnsIn h) hst).trans h
  | stmt st =>
    rcases stmtCalls_cases st hx with hasks | ⟨before, b, after, rfl, _, hbefore, _⟩
    · exact within_of_isExpr ((hasks s).ok hr).2 (((hasks s).returnsIn hr).trans h)
    · obtain ⟨_, s₁, hrun, hr⟩ := bind_eq_ok hr
      cases hr
      exact (hbefore.returnsIn (isSome_body_of_returnsIn h) hrun).trans h
  | expr e =>
    have hasks : Asks x s := Task.calls_asks rfl x hx
    exact within_of_isExpr (hasks.ok hr).2 ((hasks.returnsIn hr).trans h)
  | arguments callee number args params =>
    have hasks : Asks x s := Task.calls_asks rfl x hx
    exact within_of_isExpr (hasks.ok hr).2 ((hasks.returnsIn hr).trans h)
  | _ => cases h

end Task

theorem Reaches.within {t t' : Task} {s s' : Session} {returns : Option ValueType}
    (h : Reaches t s t' s') (ht : t.Within returns s) : t'.Within returns s' :=
  h.keep (P := fun t s => t.Within returns s) (fun _ _ _ _ _ h => h.call) ht

/-- The value of a `return` has a type that the function may return. -/
def Expr.Answers (expected : ValueType) (e : Expr) (s : Session) : Prop :=
  ∃ t s', Check.value e s = .ok t s' ∧ e.typeIn s.memory = .ok t ∧ expected.accepts t = true

/-- A `return` that is found right in a function with a return type has a value of this type. -/
theorem Check.answers_of_ret {s e : Session} {token : Token} {value : Option Expr}
    {expected : ValueType} (hs : returnsIn s = some (some expected))
    (h : ret token value s = .ok () e) :
    ∃ result, value = some result ∧ result.Answers expected s := by
  obtain ⟨b, hb, hreturns⟩ := Option.map_eq_some_iff.mp hs
  unfold ret at h
  rw [bind_get, hb] at h
  simp only [hreturns] at h
  cases value with
  | none => cases h
  | some result =>
    obtain ⟨t, s₁, hvalue, h⟩ := bind_eq_ok h
    split at h
    · next haccepts =>
      exact ⟨result, rfl, t, s₁, hvalue, typeIn_of_expr result (expr_of_value hvalue), haccepts⟩
    · cases h

/-! ### Functions -/

section Functions

open Check

variable {d : FunctionDef} {s₁ : Session}

/-- Every function of a list that is found right is come to. -/
theorem exists_reaches_body {ds : List FunctionDef} {s : Session} (hd : d ∈ ds)
    (ha : (Task.bodies ds).Accepted s) : ∃ s₁, Reaches (.bodies ds) s (.body d) s₁ := by
  induction ds generalizing s with
  | nil => cases hd
  | cons f rest ih =>
    obtain ⟨e, hrun⟩ := ha
    obtain ⟨_, s₂, hfirst, hrest⟩ := bind_eq_ok hrun
    rcases List.mem_cons.mp hd with rfl | hd
    · exact ⟨s, .call List.mem_cons_self rfl (.here _ _)⟩
    · obtain ⟨s₁, h⟩ := ih hd ⟨e, hrest⟩
      have hcall : (do functionBody f; return Task.bodies rest) ∈ (Task.bodies (f :: rest)).calls :=
        List.mem_cons_of_mem _ List.mem_cons_self
      exact ⟨s₁, .call hcall (bind_of_ok hfirst) h⟩

theorem exists_reaches_function {source : SourceFile} {s : Session} (hd : d ∈ source.functions)
    (ha : (Task.file source).Accepted s) : ∃ s₁, Reaches (.file source) s (.body d) s₁ := by
  obtain ⟨e, hrun⟩ := ha
  obtain ⟨_, s₁, htypes, hrun⟩ := bind_eq_ok hrun
  obtain ⟨_, s₂, hitems, hbodies⟩ := bind_eq_ok hrun
  have hcall : (do types source.types; source.items.forM item; return .bodies source.functions) ∈
      (Task.file source).calls := List.mem_cons_of_mem _ List.mem_cons_self
  obtain ⟨s₃, h⟩ := exists_reaches_body hd ⟨e, hbodies⟩
  exact ⟨s₃, .call hcall ((bind_of_ok htypes).trans (bind_of_ok hitems)) h⟩

/-- The check of a function from `s₁` comes to its statements in `s₂`; there they are found right,
with `expected` as the type to return, and they return on every path. -/
structure FunctionDef.Passes (d : FunctionDef) (expected : ValueType) (s₁ s₂ : Session) : Prop where
  total : d.body.alwaysReturns = true
  returns : returnsIn s₂ = some (some expected)
  accepted : (Task.stmts d.body.body).Accepted s₂
  calls : ∀ x ∈ (Task.body d).calls, x s₁ = .ok (.stmts d.body.body) s₂

theorem FunctionDef.passes_of_accepted {a : Annotation} (ha : d.returns = some a)
    (h : (Task.body d).Accepted s₁) :
    ∃ expected s₂, resolve a s₁ = .ok expected s₁ ∧ d.Passes expected s₁ s₂ := by
  obtain ⟨e, hrun⟩ := h
  rw [functionBody_eq] at hrun
  obtain ⟨r, s₂, hparams, hrun⟩ := bind_eq_ok hrun
  obtain ⟨_, s₃, hstmts, hleave⟩ := bind_eq_ok hrun
  obtain ⟨expected, hr, hresolve, hreturns⟩ := returnsIn_of_entering ha hparams
  have htotal : d.body.alwaysReturns = true := by
    unfold leaving at hleave
    split at hleave
    · cases hleave
    · next hcond => simpa [hr] using hcond
  refine ⟨expected, s₂, hresolve, htotal, hreturns, ⟨s₃, hstmts⟩, ?_⟩
  intro x hx
  rw [Task.calls, bodyCalls_eq, List.mem_singleton] at hx
  rw [hx, bind_of_ok hparams]
  rfl

variable {expected : ValueType} {s₂ : Session} {token : Token} {value : Option Expr}

/-- The check has come to the `return` that an execution ends in. -/
theorem FunctionDef.Passes.finds (h : d.Passes expected s₁ s₂)
    (hx : d.body.Runs (.returned token value)) : (Task.body d).Finds token value s₁ := by
  have hcall := List.mem_of_getElem? (rfl : (Task.body d).calls[0]? = some _)
  exact .call hcall (h.calls _ hcall) (hx.body.finds rfl h.accepted)

/-- Every `return` that the check comes to has a value of the right type. -/
theorem FunctionDef.Passes.answers {s : Session} (h : d.Passes expected s₁ s₂)
    (hr : Reaches (.body d) s₁ (.stmt (.ret token value)) s) :
    ∃ e, value = some e ∧ e.Answers expected s := by
  cases hr with
  | call hx hr hrest =>
    cases (h.calls _ hx).symm.trans hr
    obtain ⟨e, hrun⟩ := hrest.accepted h.accepted
    exact answers_of_ret (hrest.within h.returns) hrun

end Functions

/-- No execution of a block that returns on every path falls through. So in a file that is found
right, every execution of a function with a return type ends in a `return`; the check has come to
this `return`, and each time found a value whose type the declared one accepts. -/
theorem executions_end_in_return :
    (∀ b : Block, b.alwaysReturns = true → ¬ b.Runs .through) ∧
    ∀ (file : String) (memory : Tracker) (names : Registry) (source : SourceFile)
      (v : VerifiedFile), (verify file memory names source).result = .ok v →
      ∀ d ∈ source.functions, ∀ a, d.returns = some a →
        (∃ x, d.body.Runs x) ∧
        (∃ s₁, Reaches (.file source) (.start file memory names) (.body d) s₁) ∧
        ∀ s₁, Reaches (.file source) (.start file memory names) (.body d) s₁ →
          ∃ expected, Check.resolve a s₁ = .ok expected s₁ ∧
            ∀ x, d.body.Runs x → ∃ token e, x = .returned token (some e) ∧
              (∃ s, Reaches (.body d) s₁ (.stmt (.ret token (some e))) s) ∧
              ∀ s, Reaches (.body d) s₁ (.stmt (.ret token (some e))) s → e.Answers expected s := by
  constructor
  · exact Block.not_through
  · intro file memory names source v h d hd a ha
    obtain ⟨s', hrun, _⟩ := verify_result_ok h
    have haccepted : (Task.file source).Accepted (.start file memory names) := ⟨s', hrun⟩
    refine ⟨d.body.exists_runs, exists_reaches_function hd haccepted, ?_⟩
    intro s₁ hreach
    obtain ⟨expected, s₂, hresolve, hpasses⟩ :=
      FunctionDef.passes_of_accepted ha (hreach.accepted haccepted)
    refine ⟨expected, hresolve, ?_⟩
    intro x hx
    cases x with
    | through => exact absurd hx (d.body.not_through hpasses.total)
    | returned token value =>
      obtain ⟨s, hfound⟩ := hpasses.finds hx
      obtain ⟨e, rfl, _⟩ := hpasses.answers hfound
      refine ⟨token, e, rfl, ⟨s, hfound⟩, ?_⟩
      intro s hr
      obtain ⟨e', heq, hanswers⟩ := hpasses.answers hr
      cases heq
      exact hanswers

/-- A loop that may return, and a chain of branches each of which does. -/
def branches : String :=
  "fn f(x: u8) -> u16 \x7b while (x) \x7b if (x) \x7b return 1; \x7d \x7d " ++
    "if (x > 2) \x7b return 2; \x7d else if (x) \x7b \x7b return x; \x7d \x7d " ++
    "else \x7b return 300; \x7d \x7d"

/-- Every execution of `f` answers a value of a type that `u16` accepts. -/
theorem executions_end_in_return_branches :
    ∃ source v d, SourceFile.parse "main" (scan branches).tokens = .ok source ∧
      (verify "main" .empty .empty source).result = .ok v ∧ source.functions = [d] ∧
      (∃ x, d.body.Runs x) ∧ ∀ x, d.body.Runs x → ∃ token e, x = .returned token (some e) ∧
        ∃ s, e.Answers (.prim .u16) s := by
  have hsample : (match SourceFile.parse "main" (scan branches).tokens with
    | .ok source =>
      (match (verify "main" .empty .empty source).result with
      | .error _ => false
      | .ok _ => source.functions.length == 1 && source.functions.all fun d =>
          d.returns.any fun a => a.primitive? == some .u16 && !a.isArray)
    | .error _ => false) = true := by
    decide +kernel
  split at hsample
  · next source hparse =>
    split at hsample
    · cases hsample
    · next v hv =>
      simp only [Bool.and_eq_true, beq_iff_eq, List.all_eq_true] at hsample
      obtain ⟨hone, hreturns⟩ := hsample
      obtain ⟨d, hd⟩ := List.length_eq_one_iff.mp hone
      have hmem : d ∈ source.functions := by rw [hd]; exact List.mem_singleton.mpr rfl
      obtain ⟨a, ha, hu16⟩ := (Option.any_eq_true _ _).mp (hreturns d hmem)
      simp only [Bool.and_eq_true, beq_iff_eq, Bool.not_eq_true'] at hu16
      obtain ⟨hruns, ⟨s₁, hreach⟩, hall⟩ :=
        executions_end_in_return.2 "main" .empty .empty source v hv d hmem a ha
      obtain ⟨expected, hresolve, hends⟩ := hall s₁ hreach
      have hexpected : Check.resolve a s₁ = .ok (.prim .u16) s₁ := by
        unfold Check.resolve Check.baseType
        rw [bind_get, hu16.1, hu16.2]
        rfl
      cases hresolve.symm.trans hexpected
      refine ⟨source, v, d, hparse, hv, hd, hruns, ?_⟩
      intro x hx
      obtain ⟨token, e, hx, ⟨s, hs⟩, hanswers⟩ := hends x hx
      exact ⟨token, e, hx, s, hanswers s hs⟩
  · cases hsample

end StoragePlan
