import StoragePlan.Proofs.Numbering

/-!
Trees with other numbers. The numbers of the nodes are all that changes; whether an expression can
be assigned to does not depend on them. A change that leaves every number of a tree as it is leaves
the tree as it is, and two changes in turn are one.
-/

namespace StoragePlan

/-! ### Expressions -/

mutual

/-- The expression with the number `f n` in place of `n`. -/
def Expr.renumber (f : Nat → Nat) : Expr → Expr
  | .literal id t => .literal (f id) t
  | .ident id t => .ident (f id) t
  | .unary id op operand => .unary (f id) op (operand.renumber f)
  | .binary id left op right => .binary (f id) (left.renumber f) op (right.renumber f)
  | .call id callee args => .call (f id) callee (Expr.renumberAll f args)
  | .index id target bracket subscript =>
    .index (f id) (target.renumber f) bracket (subscript.renumber f)

def Expr.renumberAll (f : Nat → Nat) : List Expr → List Expr
  | [] => []
  | e :: rest => e.renumber f :: Expr.renumberAll f rest

end

section Expressions

variable {f g : Nat → Nat}

mutual

theorem Expr.renumber_renumber : ∀ e : Expr, (e.renumber g).renumber f = e.renumber (f ∘ g)
  | .literal id t => rfl
  | .ident id t => rfl
  | .unary id op operand => by
    simp only [Expr.renumber, operand.renumber_renumber, Function.comp_apply]
  | .binary id left op right => by
    simp only [Expr.renumber, left.renumber_renumber, right.renumber_renumber,
      Function.comp_apply]
  | .call id callee args => by
    simp only [Expr.renumber, Expr.renumberAll_renumberAll args, Function.comp_apply]
  | .index id target bracket subscript => by
    simp only [Expr.renumber, target.renumber_renumber, subscript.renumber_renumber,
      Function.comp_apply]

theorem Expr.renumberAll_renumberAll : ∀ es : List Expr,
    Expr.renumberAll f (Expr.renumberAll g es) = Expr.renumberAll (f ∘ g) es
  | [] => rfl
  | e :: rest => by
    simp only [Expr.renumberAll, e.renumber_renumber, Expr.renumberAll_renumberAll rest]

end

mutual

theorem Expr.renumber_of_fixed : ∀ e : Expr, (∀ n ∈ e.numbers, f n = n) → e.renumber f = e
  | .literal id t, h => by
    rw [Expr.renumber, h id (by simp [Expr.numbers])]
  | .ident id t, h => by
    rw [Expr.renumber, h id (by simp [Expr.numbers])]
  | .unary id op operand, h => by
    simp only [Expr.numbers, List.forall_mem_append, List.forall_mem_singleton] at h
    rw [Expr.renumber, operand.renumber_of_fixed h.1, h.2]
  | .binary id left op right, h => by
    simp only [Expr.numbers, List.forall_mem_append, List.forall_mem_singleton] at h
    rw [Expr.renumber, left.renumber_of_fixed h.1, right.renumber_of_fixed h.2.1, h.2.2]
  | .call id callee args, h => by
    simp only [Expr.numbers, List.forall_mem_append, List.forall_mem_singleton] at h
    rw [Expr.renumber, Expr.renumberAll_of_fixed args h.1, h.2]
  | .index id target bracket subscript, h => by
    simp only [Expr.numbers, List.forall_mem_append, List.forall_mem_singleton] at h
    rw [Expr.renumber, target.renumber_of_fixed h.1, subscript.renumber_of_fixed h.2.1, h.2.2]

theorem Expr.renumberAll_of_fixed : ∀ es : List Expr, (∀ n ∈ Expr.numbersAll es, f n = n) →
    Expr.renumberAll f es = es
  | [], _ => rfl
  | e :: rest, h => by
    simp only [Expr.numbersAll, List.forall_mem_append] at h
    rw [Expr.renumberAll, e.renumber_of_fixed h.1, Expr.renumberAll_of_fixed rest h.2]

end

theorem Expr.root?_renumber : ∀ e : Expr, (e.renumber f).root? = e.root?
  | .literal id t => rfl
  | .ident id t => rfl
  | .unary id op operand => rfl
  | .binary id left op right => by
    rw [Expr.renumber, Expr.root?, Expr.root?, left.root?_renumber]
  | .call id callee args => rfl
  | .index id target bracket subscript => by
    rw [Expr.renumber, Expr.root?, Expr.root?, target.root?_renumber]

theorem Expr.isAssignable_renumber (e : Expr) :
    (e.renumber f).isAssignable = e.isAssignable := by
  rw [Expr.isAssignable, Expr.isAssignable, e.root?_renumber]

end Expressions

/-! ### Declarations and statements -/

def VariableDecl.renumber (f : Nat → Nat) (d : VariableDecl) : VariableDecl :=
  { d with value := d.value.map (Expr.renumber f) }

def ConstantDecl.renumber (f : Nat → Nat) (d : ConstantDecl) : ConstantDecl :=
  { d with value := d.value.renumber f }

mutual

def Stmt.renumber (f : Nat → Nat) : Stmt → Stmt
  | .varDecl d => .varDecl (d.renumber f)
  | .constDecl d => .constDecl (d.renumber f)
  | .typeDef d => .typeDef d
  | .assign target op value => .assign (target.renumber f) op (value.renumber f)
  | .expr e => .expr (e.renumber f)
  | .branch token c thenBlock none => .branch token (c.renumber f) (thenBlock.renumber f) none
  | .branch token c thenBlock (some elseBlock) =>
    .branch token (c.renumber f) (thenBlock.renumber f) (some (elseBlock.renumber f))
  | .loop token c body => .loop token (c.renumber f) (body.renumber f)
  | .ret token value => .ret token (value.map (Expr.renumber f))
  | .block b => .block (b.renumber f)

def Block.renumber (f : Nat → Nat) : Block → Block
  | ⟨opening, closing, body⟩ => ⟨opening, closing, Stmt.renumberAll f body⟩

def Stmt.renumberAll (f : Nat → Nat) : List Stmt → List Stmt
  | [] => []
  | st :: rest => st.renumber f :: Stmt.renumberAll f rest

end

namespace Stmt.Branch

def renumber (f : Nat → Nat) (b : Branch) : Branch :=
  ⟨b.token, b.condition.renumber f, b.thenBlock.renumber f, b.elseBlock.map (Block.renumber f)⟩

theorem toStmt_renumber (f : Nat → Nat) (b : Branch) :
    (b.renumber f).toStmt = b.toStmt.renumber f := by
  obtain ⟨token, condition, thenBlock, elseBlock⟩ := b
  cases elseBlock with
  | none => rw [toStmt, toStmt, Stmt.renumber, renumber, Option.map_none]
  | some elseBlock => rw [toStmt, toStmt, Stmt.renumber, renumber, Option.map_some]

theorem closing_renumber (f : Nat → Nat) (b : Branch) : (b.renumber f).closing = b.closing := by
  obtain ⟨token, condition, ⟨_, _, _⟩, elseBlock⟩ := b
  cases elseBlock with
  | none => rfl
  | some elseBlock =>
    obtain ⟨_, _, _⟩ := elseBlock
    rfl

theorem toElse_renumber (f : Nat → Nat) (other : Token) (b : Branch) :
    (b.renumber f).toElse other = (b.toElse other).renumber f := by
  rw [toElse, toElse, Block.renumber, closing_renumber, toStmt_renumber, Stmt.renumberAll,
    Stmt.renumberAll]

end Stmt.Branch

def FunctionDef.renumber (f : Nat → Nat) (d : FunctionDef) : FunctionDef :=
  { d with body := d.body.renumber f }

/-- The part of a file with the number `f n` in place of `n`. -/
def Item.renumber (f : Nat → Nat) : Item → Item
  | .importFile i => .importFile i
  | .typeDef d => .typeDef d
  | .function d => .function (d.renumber f)
  | .varDecl d => .varDecl (d.renumber f)
  | .constDecl d => .constDecl (d.renumber f)

section Statements

variable {f g : Nat → Nat}

theorem Expr.map_renumber_renumber (o : Option Expr) :
    (o.map (Expr.renumber g)).map (Expr.renumber f) = o.map (Expr.renumber (f ∘ g)) := by
  cases o with
  | none => rfl
  | some e => exact congrArg some e.renumber_renumber

theorem Expr.map_renumber_of_fixed (o : Option Expr)
    (h : ∀ n ∈ Expr.numbersAll o.toList, f n = n) : o.map (Expr.renumber f) = o := by
  cases o with
  | none => rfl
  | some e =>
    simp only [Option.toList, Expr.numbersAll, List.append_nil] at h
    exact congrArg some (e.renumber_of_fixed h)

theorem VariableDecl.renumber_renumber (d : VariableDecl) :
    (d.renumber g).renumber f = d.renumber (f ∘ g) := by
  simp only [VariableDecl.renumber, Expr.map_renumber_renumber]

theorem ConstantDecl.renumber_renumber (d : ConstantDecl) :
    (d.renumber g).renumber f = d.renumber (f ∘ g) := by
  simp only [ConstantDecl.renumber, Expr.renumber_renumber]

theorem VariableDecl.renumber_of_fixed (d : VariableDecl)
    (h : ∀ n ∈ Expr.numbersAll d.value.toList, f n = n) : d.renumber f = d := by
  rw [VariableDecl.renumber, Expr.map_renumber_of_fixed d.value h]

theorem ConstantDecl.renumber_of_fixed (d : ConstantDecl)
    (h : ∀ n ∈ Expr.numbersAll [d.value], f n = n) : d.renumber f = d := by
  simp only [Expr.numbersAll, List.append_nil] at h
  rw [ConstantDecl.renumber, d.value.renumber_of_fixed h]

mutual

theorem Stmt.renumber_renumber : ∀ st : Stmt, (st.renumber g).renumber f = st.renumber (f ∘ g)
  | .varDecl d => by simp only [Stmt.renumber, d.renumber_renumber]
  | .constDecl d => by simp only [Stmt.renumber, d.renumber_renumber]
  | .typeDef d => rfl
  | .assign target op value => by simp only [Stmt.renumber, Expr.renumber_renumber]
  | .expr e => by simp only [Stmt.renumber, Expr.renumber_renumber]
  | .branch token c thenBlock none => by
    simp only [Stmt.renumber, Expr.renumber_renumber, thenBlock.renumber_renumber]
  | .branch token c thenBlock (some elseBlock) => by
    simp only [Stmt.renumber, Expr.renumber_renumber, thenBlock.renumber_renumber,
      elseBlock.renumber_renumber]
  | .loop token c body => by
    simp only [Stmt.renumber, Expr.renumber_renumber, body.renumber_renumber]
  | .ret token value => by simp only [Stmt.renumber, Expr.map_renumber_renumber]
  | .block b => by simp only [Stmt.renumber, b.renumber_renumber]

theorem Block.renumber_renumber : ∀ b : Block, (b.renumber g).renumber f = b.renumber (f ∘ g)
  | ⟨opening, closing, body⟩ => by
    simp only [Block.renumber, Stmt.renumberAll_renumberAll body]

theorem Stmt.renumberAll_renumberAll : ∀ body : List Stmt,
    Stmt.renumberAll f (Stmt.renumberAll g body) = Stmt.renumberAll (f ∘ g) body
  | [] => rfl
  | st :: rest => by
    simp only [Stmt.renumberAll, st.renumber_renumber, Stmt.renumberAll_renumberAll rest]

end

mutual

theorem Stmt.renumber_of_fixed : ∀ st : Stmt, (∀ n ∈ Expr.numbersAll st.exprs, f n = n) →
    st.renumber f = st
  | .varDecl d, h => by rw [Stmt.renumber, d.renumber_of_fixed h]
  | .constDecl d, h => by rw [Stmt.renumber, d.renumber_of_fixed h]
  | .typeDef d, _ => rfl
  | .assign target op value, h => by
    simp only [Stmt.exprs, Expr.numbersAll, List.append_nil, List.forall_mem_append] at h
    rw [Stmt.renumber, target.renumber_of_fixed h.1, value.renumber_of_fixed h.2]
  | .expr e, h => by
    simp only [Stmt.exprs, Expr.numbersAll, List.append_nil] at h
    rw [Stmt.renumber, e.renumber_of_fixed h]
  | .branch token c thenBlock none, h => by
    simp only [Stmt.exprs, Expr.numbersAll, List.forall_mem_append] at h
    rw [Stmt.renumber, c.renumber_of_fixed h.1, thenBlock.renumber_of_fixed h.2]
  | .branch token c thenBlock (some elseBlock), h => by
    simp only [Stmt.exprs, Expr.numbersAll, Expr.numbersAll_append, List.forall_mem_append] at h
    rw [Stmt.renumber, c.renumber_of_fixed h.1, thenBlock.renumber_of_fixed h.2.1,
      elseBlock.renumber_of_fixed h.2.2]
  | .loop token c body, h => by
    simp only [Stmt.exprs, Expr.numbersAll, List.forall_mem_append] at h
    rw [Stmt.renumber, c.renumber_of_fixed h.1, body.renumber_of_fixed h.2]
  | .ret token value, h => by rw [Stmt.renumber, Expr.map_renumber_of_fixed value h]
  | .block b, h => by rw [Stmt.renumber, b.renumber_of_fixed h]

theorem Block.renumber_of_fixed : ∀ b : Block, (∀ n ∈ Expr.numbersAll b.exprs, f n = n) →
    b.renumber f = b
  | ⟨opening, closing, body⟩, h => by rw [Block.renumber, Stmt.renumberAll_of_fixed body h]

theorem Stmt.renumberAll_of_fixed : ∀ body : List Stmt,
    (∀ n ∈ Expr.numbersAll (Stmt.exprsAll body), f n = n) → Stmt.renumberAll f body = body
  | [], _ => rfl
  | st :: rest, h => by
    simp only [Stmt.exprsAll, Expr.numbersAll_append, List.forall_mem_append] at h
    rw [Stmt.renumberAll, st.renumber_of_fixed h.1, Stmt.renumberAll_of_fixed rest h.2]

end

namespace Item

theorem renumber_renumber (i : Item) : (i.renumber g).renumber f = i.renumber (f ∘ g) := by
  cases i with
  | importFile i => rfl
  | typeDef d => rfl
  | function d => simp only [Item.renumber, FunctionDef.renumber, Block.renumber_renumber]
  | varDecl d => simp only [Item.renumber, VariableDecl.renumber_renumber]
  | constDecl d => simp only [Item.renumber, ConstantDecl.renumber_renumber]

theorem renumber_of_fixed (i : Item) (h : ∀ n ∈ Expr.numbersAll i.exprs, f n = n) :
    i.renumber f = i := by
  cases i with
  | importFile i => rfl
  | typeDef d => rfl
  | function d => rw [Item.renumber, FunctionDef.renumber, d.body.renumber_of_fixed h]
  | varDecl d => rw [Item.renumber, d.renumber_of_fixed h]
  | constDecl d => rw [Item.renumber, d.renumber_of_fixed h]

end Item

end Statements

end StoragePlan
