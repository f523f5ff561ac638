import StoragePlan.SourceFile

/-!
Trees can be compared. Equality of expressions, of statements and of items is decided by going through
both trees at the same time, so that what is said of the items of a fixed text can be evaluated.
-/

namespace StoragePlan

/-! ### Expressions -/

mutual

def Expr.same : Expr → Expr → Bool
  | .literal id t, .literal id' t' => id == id' && t == t'
  | .ident id t, .ident id' t' => id == id' && t == t'
  | .unary id op e, .unary id' op' e' => id == id' && op == op' && e.same e'
  | .binary id l op r, .binary id' l' op' r' => id == id' && l.same l' && op == op' && r.same r'
  | .call id callee args, .call id' callee' args' =>
    id == id' && callee == callee' && Expr.sameAll args args'
  | .index id e bracket i, .index id' e' bracket' i' =>
    id == id' && e.same e' && bracket == bracket' && i.same i'
  | _, _ => false

def Expr.sameAll : List Expr → List Expr → Bool
  | [], [] => true
  | e :: es, e' :: es' => e.same e' && Expr.sameAll es es'
  | _, _ => false

end

mutual

theorem Expr.same_iff : ∀ e e' : Expr, e.same e' = true ↔ e = e'
  | .literal _ _, e' => by cases e' <;> simp [Expr.same]
  | .ident _ _, e' => by cases e' <;> simp [Expr.same]
  | .unary _ _ e, e' => by cases e' <;> simp [Expr.same, e.same_iff, and_assoc]
  | .binary _ l _ r, e' => by cases e' <;> simp [Expr.same, l.same_iff, r.same_iff, and_assoc]
  | .call _ _ args, e' => by cases e' <;> simp [Expr.same, Expr.sameAll_iff args, and_assoc]
  | .index _ e _ i, e' => by cases e' <;> simp [Expr.same, e.same_iff, i.same_iff, and_assoc]

theorem Expr.sameAll_iff : ∀ es es' : List Expr, Expr.sameAll es es' = true ↔ es = es'
  | [], es' => by cases es' <;> simp [Expr.sameAll]
  | e :: es, es' => by cases es' <;> simp [Expr.sameAll, e.same_iff, Expr.sameAll_iff es]

end

instance : DecidableEq Expr := fun e e' => decidable_of_iff _ (e.same_iff e')

deriving instance DecidableEq for VariableDecl
deriving instance DecidableEq for ConstantDecl

/-! ### Statements -/

mutual

def Stmt.same : Stmt → Stmt → Bool
  | .varDecl d, .varDecl d' => d == d'
  | .constDecl d, .constDecl d' => d == d'
  | .typeDef d, .typeDef d' => d == d'
  | .assign target op value, .assign target' op' value' =>
    target == target' && op == op' && value == value'
  | .expr e, .expr e' => e == e'
  | .branch t c b none, .branch t' c' b' none => t == t' && c == c' && b.same b'
  | .branch t c b (some o), .branch t' c' b' (some o') => t == t' && c == c' && b.same b' && o.same o'
  | .loop t c b, .loop t' c' b' => t == t' && c == c' && b.same b'
  | .ret t value, .ret t' value' => t == t' && value == value'
  | .block b, .block b' => b.same b'
  | _, _ => false

def Block.same : Block → Block → Bool
  | ⟨o, c, body⟩, ⟨o', c', body'⟩ => o == o' && c == c' && Stmt.sameAll body body'

def Stmt.sameAll : List Stmt → List Stmt → Bool
  | [], [] => true
  | st :: rest, st' :: rest' => st.same st' && Stmt.sameAll rest rest'
  | _, _ => false

end

mutual

theorem Stmt.same_iff : ∀ st st' : Stmt, st.same st' = true ↔ st = st'
  | .varDecl _, st' => by cases st' <;> simp [Stmt.same]
  | .constDecl _, st' => by cases st' <;> simp [Stmt.same]
  | .typeDef _, st' => by cases st' <;> simp [Stmt.same]
  | .assign _ _ _, st' => by cases st' <;> simp [Stmt.same, and_assoc]
  | .expr _, st' => by cases st' <;> simp [Stmt.same]
  | .branch _ _ b none, st' => by
    cases st' with
    | branch _ _ _ o => cases o <;> simp [Stmt.same, b.same_iff, and_assoc]
    | _ => simp [Stmt.same]
  | .branch _ _ b (some o), st' => by
    cases st' with
    | branch _ _ _ o' => cases o' <;> simp [Stmt.same, b.same_iff, o.same_iff, and_assoc]
    | _ => simp [Stmt.same]
  | .loop _ _ b, st' => by cases st' <;> simp [Stmt.same, b.same_iff, and_assoc]
  | .ret _ _, st' => by cases st' <;> simp [Stmt.same]
  | .block b, st' => by cases st' <;> simp [Stmt.same, b.same_iff]

theorem Block.same_iff : ∀ b b' : Block, b.same b' = true ↔ b = b'
  | ⟨_, _, body⟩, ⟨_, _, _⟩ => by simp [Block.same, Stmt.sameAll_iff body, and_assoc]

theorem Stmt.sameAll_iff : ∀ body body' : List Stmt, Stmt.sameAll body body' = true ↔ body = body'
  | [], body' => by cases body' <;> simp [Stmt.sameAll]
  | st :: rest, body' => by cases body' <;> simp [Stmt.sameAll, st.same_iff, Stmt.sameAll_iff rest]

end

instance : DecidableEq Stmt := fun st st' => decidable_of_iff _ (st.same_iff st')

instance : DecidableEq Block := fun b b' => decidable_of_iff _ (b.same_iff b')

/-! ### Items -/

deriving instance DecidableEq for FunctionDef
deriving instance DecidableEq for Item

end StoragePlan
