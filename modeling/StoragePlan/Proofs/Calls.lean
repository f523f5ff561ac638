import StoragePlan.Proofs.Ledger

/-!
The calls that make up the check of a file. A `Task` is a part of a program that is checked by itself;
`Task.calls` lists, for each, the steps that lead to a further task. So the tasks that a check reaches,
with the sessions in which it begins them, are a relation that can be followed call by call, and what
every call keeps holds wherever the check arrives.
-/

namespace StoragePlan

/-- A part of a program with a check of its own. -/
inductive Task where
  | file (f : SourceFile)
  | items (is : List Item)
  | item (i : Item)
  | bodies (ds : List FunctionDef)
  | body (d : FunctionDef)
  | block (b : Block)
  | stmts (body : List Stmt)
  | stmt (st : Stmt)
  | expr (e : Expr)
  | arguments (callee : String) (number : Nat) (args : List Expr) (params : List TypedName)

namespace Check

/-- What the declaration of a value checks before its initializer. -/
def announce (name : Token) (a : Annotation) : Check Unit := do
  let id ← ofExcept (nameOf name)
  requireNew id name.position
  let t ← resolve a
  let _ ← sizeOf t a.position

/-- The call for an initializer; one that has to be a literal is only looked at if it is. -/
def initializerCalls (literal : Bool) (name : Token) (a : Annotation) :
    Option Expr → List (Check Task)
  | none => []
  | some e =>
    match literal, e with
    | true, .literal id token => [do announce name a; return .expr (.literal id token)]
    | true, _ => []
    | false, e => [do announce name a; return .expr e]

def itemCalls : Item → List (Check Task)
  | .varDecl d => initializerCalls true d.name d.annotation d.value
  | .constDecl d => initializerCalls true d.name d.annotation (some d.value)
  | _ => []

def bodyCalls (d : FunctionDef) : List (Check Task) :=
  [do
    let id ← ofExcept (nameOf d.name)
    let returns ← d.returns.mapM resolve
    modify fun s => { s with body := some ⟨id, returns, []⟩ }
    openScope
    d.params.forM pushParameter
    return .stmts d.body.body]

def stmtCalls : Stmt → List (Check Task)
  | .varDecl d => initializerCalls false d.name d.annotation d.value
  | .constDecl d => initializerCalls true d.name d.annotation (some d.value)
  | .typeDef _ => []
  | .assign target op source =>
    [return .expr target,
     do
      let _ ← value target
      let root ← ofExcept (rootOf target op)
      let id ← ofExcept (nameOf root)
      let _ ← lookup? id
      return .expr source]
  | .expr e => [return .expr e]
  | .branch _ c thenBlock none => [return .expr c, do condition c; return .block thenBlock]
  | .branch _ c thenBlock (some elseBlock) =>
    [return .expr c,
     do condition c; return .block thenBlock,
     do condition c; block thenBlock; return .block elseBlock]
  | .loop _ c body => [return .expr c, do condition c; return .block body]
  | .ret _ result => result.toList.map fun e => return .expr e
  | .block b => [return .block b]

def exprCalls : Expr → List (Check Task)
  | .literal _ _ => []
  | .ident _ _ => []
  | .unary _ _ operand => [return .expr operand]
  | .binary _ left op right =>
    (return .expr left) ::
      if Expr.isAccess op then [] else [do let _ ← value left; return .expr right]
  | .call _ callee args =>
    [do
      let name ← ofExcept (nameOf callee)
      let params ← parametersOf callee name
      return .arguments name 1 args params]
  | .index _ target _ subscript =>
    [return .expr target, do let _ ← value target; return .expr subscript]

end Check

open Check in
/-- The calls that the check of a task makes, each with the steps that lead to it. -/
def Task.calls : Task → List (Check Task)
  | .file f =>
    [do types f.types; return .items f.items,
     do types f.types; f.items.forM Check.item; return .bodies f.functions]
  | .items [] => []
  | .items (i :: rest) => [return .item i, do Check.item i; return .items rest]
  | .item i => itemCalls i
  | .bodies [] => []
  | .bodies (d :: rest) => [return .body d, do functionBody d; return .bodies rest]
  | .body d => bodyCalls d
  | .block ⟨_, _, ss⟩ => [do openScope; return .stmts ss]
  | .stmts [] => []
  | .stmts (st :: rest) => [return .stmt st, do Check.stmt st; return .stmts rest]
  | .stmt st => stmtCalls st
  | .expr e => exprCalls e
  | .arguments callee number (arg :: args) (_ :: params) =>
    [return .expr arg, do let _ ← value arg; return .arguments callee (number + 1) args params]
  | .arguments _ _ _ _ => []

/-- Whether a session is inside of a function if the task is one of a function, and outside if it is
one of a file. -/
def Task.Suits (s : Session) : Task → Prop
  | .file _ | .items _ | .item _ | .bodies _ | .body _ => s.body = none
  | .block _ | .stmts _ | .stmt _ => s.body.isSome = true
  | .expr _ | .arguments _ _ _ _ => True

/-- Whether the task is part of an expression. -/
def Task.isExpr : Task → Bool
  | .expr _ | .arguments _ _ _ _ => true
  | _ => false

/-- The check of one task from one session leads to the check of another from another. -/
inductive Reaches : Task → Session → Task → Session → Prop where
  | here (t : Task) (s : Session) : Reaches t s t s
  | call {t t' t'' : Task} {s s' s'' : Session} {x : Check Task} (hx : x ∈ t.calls)
    (hr : x s = .ok t' s') (h : Reaches t' s' t'' s'') : Reaches t s t'' s''

/-- Where a path of calls leads; the path says which of the calls is followed each time. -/
def Task.follow : List Nat → Task → Session → Option (Task × Session)
  | [], t, s => some (t, s)
  | i :: path, t, s =>
    match t.calls[i]? with
    | none => none
    | some x =>
      match x s with
      | .ok t' s' => follow path t' s'
      | .error _ _ => none

theorem Reaches.of_follow {path : List Nat} {t t' : Task} {s s' : Session}
    (h : t.follow path s = some (t', s')) : Reaches t s t' s' := by
  induction path generalizing t s with
  | nil =>
    cases h
    exact .here _ _
  | cons i path ih =>
    unfold Task.follow at h
    split at h
    · cases h
    · next x hx =>
      split at h
      · next hr => exact .call (List.mem_of_getElem? hx) hr (ih h)
      · cases h

namespace Check

variable {s s' s'' : Session}

/-- A ledger that the session shows, with scopes only inside of functions. -/
def Kept (s : Session) : Prop := ∃ l, Coherent l s ∧ s.body.isSome = !l.scopes.isEmpty

/-- What the steps between two sessions keep: the session that follows shows a ledger if the first one
does, and its stack fits if the first one does. -/
structure Leads (s s' : Session) : Prop where
  kept : Kept s → Kept s'
  fits : s.memory.Fits → s'.memory.Fits

theorem Leads.refl (s : Session) : Leads s s := ⟨fun h => h, fun h => h⟩

theorem Leads.trans (h : Leads s s') (h' : Leads s' s'') : Leads s s'' :=
  ⟨h'.kept ∘ h.kept, h'.fits ∘ h.fits⟩

theorem Grown.leads {bs : List Binding} (hg : Grown bs s s') : Leads s s' where
  kept := by
    rintro ⟨l, h, hin⟩
    refine ⟨l.declare s.file bs, h.grown hg hin, ?_⟩
    rw [hg.isSome_body, hin, Ledger.declare]
    cases l.scopes <;> rfl
  fits := hg.fits

theorem leads_opened (hb : s.body.isSome = true) : Leads s (opened s) where
  kept := by
    rintro ⟨l, h, _⟩
    exact ⟨l.openScope, h.opened, hb⟩
  fits h := h

theorem leads_entered (b : Body) : Leads s (opened (entered b s)) where
  kept := by
    rintro ⟨l, h, _⟩
    have h' : Coherent l (entered b s) := h.congr rfl rfl rfl
    exact ⟨l.openScope, h'.opened, rfl⟩
  fits h := h

theorem leads_reframed (fs : List Frame) (s : Session) : Leads (reframed fs s) s where
  kept := by
    rintro ⟨l, h, hin⟩
    exact ⟨l, h.congr rfl rfl rfl, hin⟩
  fits h := h

/-- Every call keeps these, and the tasks inside of functions are called from there. -/
def Orderly (x : Check Task) (s : Session) : Prop :=
  Ends x s (fun t s' => Leads s s' ∧ t.Suits s') (fun _ _ => True)

theorem Orderly.pure {t : Task} (h : t.Suits s) : Orderly (Pure.pure t) s :=
  Ends.pure ⟨.refl s, h⟩

/-- A call after steps that declare nothing. -/
theorem Orderly.of_notes {α : Type} {x : Check α} {f : α → Check Task} (hx : Notes x)
    (hf : ∀ a s', s'.body.isSome = s.body.isSome → Orderly (f a) s') : Orderly (x >>= f) s :=
  (hx s).seq (fun _ _ _ => trivial) fun a s' h =>
    (hf a s' h.isSome_body).mono (fun _ _ h' => ⟨h.leads.trans h'.1, h'.2⟩) (fun _ _ _ => trivial)

/-- A call after steps that may make declarations. -/
theorem Orderly.of_grows {inner : Bool} {α : Type} {x : Check α} {f : α → Check Task}
    (hx : Grows inner x) (hs : s.body.isSome = inner)
    (hf : ∀ a s', s'.body.isSome = inner → Orderly (f a) s') : Orderly (x >>= f) s :=
  (hx s hs).seq (fun _ _ _ => trivial) fun a s' ⟨_, h⟩ =>
    (hf a s' (h.isSome_body.trans hs)).mono (fun _ _ h' => ⟨h.leads.trans h'.1, h'.2⟩)
      (fun _ _ _ => trivial)

theorem notes_announce (name : Token) (a : Annotation) : Notes (announce name a) := by
  refine (notes_ofExcept _).bind fun id => (notes_requireNew id _).bind fun _ => ?_
  exact (notes_resolve a).bind fun t => (notes_sizeOf t _).bind fun _ => .pure _

/-- A call that leads into an expression has declared nothing on the way. -/
def Asks (x : Check Task) (s : Session) : Prop :=
  Ends x s (fun t s' => Noted s s' ∧ t.isExpr = true) (fun _ _ => True)

theorem Asks.pure {t : Task} (h : t.isExpr = true) : Asks (Pure.pure t) s := Ends.pure ⟨.refl s, h⟩

theorem Asks.of_notes {α : Type} {x : Check α} {f : α → Check Task} (hx : Notes x)
    (hf : ∀ a s', Asks (f a) s') : Asks (x >>= f) s :=
  (hx s).seq (fun _ _ _ => trivial) fun a s' h =>
    (hf a s').mono (fun _ _ h' => ⟨h.trans h'.1, h'.2⟩) (fun _ _ _ => trivial)

theorem Asks.orderly {x : Check Task} (h : Asks x s) : Orderly x s := by
  refine h.mono (fun t s' ⟨hn, ht⟩ => ⟨hn.toGrown.leads, ?_⟩) (fun _ _ _ => trivial)
  cases t with
  | expr e => trivial
  | arguments callee number args params => trivial
  | _ => cases ht

theorem initializerCalls_asks (literal : Bool) (name : Token) (a : Annotation)
    (init : Option Expr) : ∀ x ∈ initializerCalls literal name a init, Asks x s := by
  intro x hx
  unfold initializerCalls at hx
  split at hx
  · cases hx
  · split at hx
    · obtain rfl := List.mem_singleton.mp hx
      exact .of_notes (notes_announce name a) fun _ _ => .pure rfl
    · cases hx
    · obtain rfl := List.mem_singleton.mp hx
      exact .of_notes (notes_announce name a) fun _ _ => .pure rfl

theorem itemCalls_asks (i : Item) : ∀ x ∈ itemCalls i, Asks x s := by
  intro x hx
  cases i with
  | varDecl d => exact initializerCalls_asks true d.name d.annotation d.value x hx
  | constDecl d => exact initializerCalls_asks true d.name d.annotation (some d.value) x hx
  | function d => cases hx
  | importFile i => cases hx
  | typeDef d => cases hx

theorem bodyCalls_orderly (d : FunctionDef) : ∀ x ∈ bodyCalls d, Orderly x s := by
  intro x hx
  obtain rfl := List.mem_singleton.mp hx
  refine .of_notes (notes_ofExcept _) fun id s₁ _ => ?_
  refine (returns_ends d.returns).seq (fun _ _ _ => trivial) ?_
  rintro returns s₁ rfl
  refine Ends.bind (Ends.modify (Ends.bind (openScope_ends ?_)))
  have hparams : Orderly (do d.params.forM pushParameter; return .stmts d.body.body)
      (opened (entered ⟨id, returns, []⟩ s₁)) :=
    .of_grows (Grows.forM grows_pushParameter d.params) rfl fun _ _ hb => .pure hb
  exact hparams.mono (fun _ _ h => ⟨(leads_entered _).trans h.1, h.2⟩) (fun _ _ _ => trivial)

/-- A call of a statement leads into an expression or into a block, and then the check of the statement
is that of the block with steps before and after it. -/
theorem stmtCalls_cases (st : Stmt) {x : Check Task} (hx : x ∈ stmtCalls st) :
    (∀ s, Asks x s) ∨ ∃ (before : Check Unit) (b : Block) (after : Check Unit),
      x = (do before; return .block b) ∧ stmt st = (do before; block b; after) ∧
        Grows true before ∧ Grows true after := by
  cases st with
  | varDecl d => exact .inl fun s => initializerCalls_asks false d.name d.annotation d.value x hx
  | constDecl d =>
    exact .inl fun s => initializerCalls_asks true d.name d.annotation (some d.value) x hx
  | typeDef d => cases hx
  | assign target op source =>
    simp only [stmtCalls, List.mem_cons, List.not_mem_nil, or_false] at hx
    rcases hx with rfl | rfl
    · exact .inl fun s => .pure rfl
    · refine .inl fun s => .of_notes (notes_value target) fun _ _ => ?_
      refine .of_notes (notes_ofExcept _) fun _ _ => .of_notes (notes_ofExcept _) fun id _ => ?_
      exact .of_notes (notes_lookup? id) fun _ _ => .pure rfl
  | expr e =>
    obtain rfl := List.mem_singleton.mp hx
    exact .inl fun s => .pure rfl
  | branch token c thenBlock elseBlock =>
    cases elseBlock with
    | none =>
      simp only [stmtCalls, List.mem_cons, List.not_mem_nil, or_false] at hx
      rcases hx with rfl | rfl
      · exact .inl fun s => .pure rfl
      · exact .inr ⟨condition c, thenBlock, pure (), rfl, by simp [stmt], (notes_condition c).grows,
          (Notes.pure ()).grows⟩
    | some elseBlock =>
      simp only [stmtCalls, List.mem_cons, List.not_mem_nil, or_false] at hx
      rcases hx with rfl | rfl | rfl
      · exact .inl fun s => .pure rfl
      · exact .inr ⟨condition c, thenBlock, block elseBlock, rfl, by simp [stmt],
          (notes_condition c).grows, grows_block elseBlock⟩
      · refine .inr ⟨do condition c; block thenBlock, elseBlock, pure (), by simp, by simp [stmt],
          ?_, (Notes.pure ()).grows⟩
        exact (notes_condition c).grows.bind fun _ => grows_block thenBlock
  | loop token c body =>
    simp only [stmtCalls, List.mem_cons, List.not_mem_nil, or_false] at hx
    rcases hx with rfl | rfl
    · exact .inl fun s => .pure rfl
    · exact .inr ⟨condition c, body, pure (), rfl, by simp [stmt], (notes_condition c).grows,
        (Notes.pure ()).grows⟩
  | ret token result =>
    obtain ⟨e, _, rfl⟩ := List.mem_map.mp hx
    exact .inl fun s => .pure rfl
  | block b =>
    obtain rfl := List.mem_singleton.mp hx
    exact .inr ⟨pure (), b, pure (), by simp, by simp [stmt], (Notes.pure ()).grows,
      (Notes.pure ()).grows⟩

theorem stmtCalls_orderly (st : Stmt) (hb : s.body.isSome = true) :
    ∀ x ∈ stmtCalls st, Orderly x s := by
  intro x hx
  rcases stmtCalls_cases st hx with hasks | ⟨before, b, after, rfl, _, hbefore, _⟩
  · exact (hasks s).orderly
  · exact .of_grows hbefore hb fun _ _ h => .pure h

theorem exprCalls_asks (e : Expr) : ∀ x ∈ exprCalls e, Asks x s := by
  intro x hx
  cases e with
  | literal id token => cases hx
  | ident id token => cases hx
  | unary id op operand =>
    obtain rfl := List.mem_singleton.mp hx
    exact .pure rfl
  | binary id left op right =>
    rcases List.mem_cons.mp hx with rfl | hx
    · exact .pure rfl
    · split at hx
      · cases hx
      · obtain rfl := List.mem_singleton.mp hx
        exact .of_notes (notes_value left) fun _ _ => .pure rfl
  | call id callee args =>
    obtain rfl := List.mem_singleton.mp hx
    refine .of_notes (notes_ofExcept _) fun name _ => ?_
    exact .of_notes (notes_parametersOf callee name) fun _ _ => .pure rfl
  | index id target bracket subscript =>
    simp only [exprCalls, List.mem_cons, List.not_mem_nil, or_false] at hx
    rcases hx with rfl | rfl
    · exact .pure rfl
    · exact .of_notes (notes_value target) fun _ _ => .pure rfl

end Check

open Check in
/-- The tasks of an expression lead nowhere else. -/
theorem Task.calls_asks {s : Session} {t : Task} (ht : t.isExpr = true) :
    ∀ x ∈ t.calls, Asks x s := by
  intro x hx
  cases t with
  | expr e => exact exprCalls_asks e x hx
  | arguments callee number args params =>
    cases args with
    | nil => cases hx
    | cons arg args =>
      cases params with
      | nil => cases hx
      | cons param params =>
        simp only [Task.calls, List.mem_cons, List.not_mem_nil, or_false] at hx
        rcases hx with rfl | rfl
        · exact .pure rfl
        · exact .of_notes (notes_value arg) fun _ _ => .pure rfl
  | _ => cases ht

open Check in
/-- Every call of every task keeps the ledger and the room on the stack. -/
theorem Task.calls_orderly {s : Session} (t : Task) (hs : t.Suits s) :
    ∀ x ∈ t.calls, Orderly x s := by
  intro x hx
  cases t with
  | file f =>
    have hb : s.body.isSome = false := by simpa [Task.Suits] using hs
    simp only [Task.calls, List.mem_cons, List.not_mem_nil, or_false] at hx
    rcases hx with rfl | rfl
    · refine .of_grows (grows_types false f.types) hb fun _ _ h => .pure ?_
      simpa [Task.Suits] using h
    · refine .of_grows (grows_types false f.types) hb fun _ _ h => ?_
      refine .of_grows (Grows.forM grows_item f.items) h fun _ _ h => .pure ?_
      simpa [Task.Suits] using h
  | items is =>
    have hb : s.body.isSome = false := by simpa [Task.Suits] using hs
    cases is with
    | nil => cases hx
    | cons i rest =>
      simp only [Task.calls, List.mem_cons, List.not_mem_nil, or_false] at hx
      rcases hx with rfl | rfl
      · exact .pure hs
      · refine .of_grows (grows_item i) hb fun _ _ h => .pure ?_
        simpa [Task.Suits] using h
  | item i => exact (itemCalls_asks i x hx).orderly
  | bodies ds =>
    cases ds with
    | nil => cases hx
    | cons d rest =>
      simp only [Task.calls, List.mem_cons, List.not_mem_nil, or_false] at hx
      rcases hx with rfl | rfl
      · exact .pure hs
      · refine (functionBody_ends d hs).seq (fun _ _ _ => trivial) fun _ s₁ h => Ends.pure ⟨?_, ?_⟩
        · exact h.leads.trans (leads_reframed _ s₁)
        · have hb := h.isSome_body
          simpa [Task.Suits, reframed, show s.body = none from hs] using hb
  | body d => exact bodyCalls_orderly d x hx
  | block b =>
    obtain ⟨o, c, ss⟩ := b
    obtain rfl := List.mem_singleton.mp hx
    exact Ends.bind (openScope_ends (Ends.pure ⟨leads_opened hs, hs⟩))
  | stmts body =>
    cases body with
    | nil => cases hx
    | cons st rest =>
      simp only [Task.calls, List.mem_cons, List.not_mem_nil, or_false] at hx
      rcases hx with rfl | rfl
      · exact .pure hs
      · exact .of_grows (grows_stmt st) hs fun _ _ h => .pure h
  | stmt st => exact stmtCalls_orderly st hs x hx
  | expr e => exact (Task.calls_asks rfl x hx).orderly
  | arguments callee number args params => exact (Task.calls_asks rfl x hx).orderly

theorem Reaches.trans {t t' t'' : Task} {s s' s'' : Session} (h : Reaches t s t' s')
    (h' : Reaches t' s' t'' s'') : Reaches t s t'' s'' := by
  induction h with
  | here => exact h'
  | call hx hr _ ih => exact .call hx hr (ih h')

/-- What every call keeps, the check keeps wherever it arrives. -/
theorem Reaches.keep {P : Task → Session → Prop}
    (hstep : ∀ t s x t' s', P t s → x ∈ t.calls → x s = .ok t' s' → P t' s') {t t' : Task}
    {s s' : Session} (h : Reaches t s t' s') (hp : P t s) : P t' s' := by
  induction h with
  | here => exact hp
  | call hx hr _ ih => exact ih (hstep _ _ _ _ _ hp hx hr)

open Check in
theorem Reaches.leads {t t' : Task} {s s' : Session} (h : Reaches t s t' s') (hs : t.Suits s) :
    Leads s s' ∧ t'.Suits s' := by
  refine h.keep (P := fun t' s' => Leads s s' ∧ t'.Suits s') ?_ ⟨.refl s, hs⟩
  intro t₁ s₁ x t₂ s₂ ⟨hleads, hsuits⟩ hx hr
  obtain ⟨hcall, hsuits₂⟩ := (Task.calls_orderly t₁ hsuits x hx).ok hr
  exact ⟨hleads.trans hcall, hsuits₂⟩

open Check in
/-- What the first session of a check shows, every session that it reaches shows too. -/
theorem Reaches.kept {t t' : Task} {s s' : Session} (h : Reaches t s t' s') (hs : t.Suits s)
    (hk : Kept s) : Kept s' :=
  (h.leads hs).1.kept hk

end StoragePlan
