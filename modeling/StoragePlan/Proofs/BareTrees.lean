import StoragePlan.Check.Stmt
import StoragePlan.Proofs.Rereading
import StoragePlan.Proofs.Shapes

/-!
Programs apart from numbers and places. The bare form of a declaration, of a statement or of a file's
item forgets the numbers of its nodes and the places of its tokens, as `Expr.bare` does for expressions.
What a check reads off a tree it reads off the bare tree; a place only shows in the fault that is
reported. So two trees with one bare form are built in the same way and say the same.
-/

namespace StoragePlan

/-! ### Bare forms -/

def Annotation.bare (a : Annotation) : Annotation := ⟨a.name.bare, a.dims.map fun d => (d.1, .start)⟩

def Field.bare (f : Field) : Field := ⟨f.name.bare, f.annotation.bare⟩

def TypeDef.bare (d : TypeDef) : TypeDef := ⟨d.exported, d.name.bare, d.fields.map Field.bare⟩

def VariableDecl.bare (d : VariableDecl) : VariableDecl :=
  ⟨d.exported, d.name.bare, d.annotation.bare, d.value.map Expr.bare⟩

def ConstantDecl.bare (d : ConstantDecl) : ConstantDecl :=
  ⟨d.exported, d.name.bare, d.annotation.bare, d.value.bare⟩

mutual

def Stmt.bare : Stmt → Stmt
  | .varDecl d => .varDecl d.bare
  | .constDecl d => .constDecl d.bare
  | .typeDef d => .typeDef d.bare
  | .assign target op value => .assign target.bare op.bare value.bare
  | .expr e => .expr e.bare
  | .branch t c thenBlock none => .branch t.bare c.bare thenBlock.bare none
  | .branch t c thenBlock (some elseBlock) =>
    .branch t.bare c.bare thenBlock.bare (some elseBlock.bare)
  | .loop t c body => .loop t.bare c.bare body.bare
  | .ret t value => .ret t.bare (value.map Expr.bare)
  | .block b => .block b.bare

def Block.bare : Block → Block
  | ⟨_, _, body⟩ => ⟨.start, .start, Stmt.bareAll body⟩

def Stmt.bareAll : List Stmt → List Stmt
  | [] => []
  | st :: rest => st.bare :: Stmt.bareAll rest

end

def FunctionDef.bare (d : FunctionDef) : FunctionDef :=
  ⟨d.exported, d.name.bare, d.params.map Field.bare, d.returns.map Annotation.bare, d.body.bare⟩

def Import.bare (i : Import) : Import := ⟨i.token.bare, i.file⟩

def Item.bare : Item → Item
  | .importFile i => .importFile i.bare
  | .typeDef d => .typeDef d.bare
  | .function d => .function d.bare
  | .varDecl d => .varDecl d.bare
  | .constDecl d => .constDecl d.bare

@[simp] theorem Block.body_bare (b : Block) : b.bare.body = Stmt.bareAll b.body := by
  cases b
  rfl

/-! ### Tokens -/

namespace Token

variable {t t' : Token}

theorem lexeme_congr (h : t'.bare = t.bare) : t'.lexeme = t.lexeme :=
  (Token.mk.inj h).1

theorem name?_congr (h : t'.bare = t.bare) : t'.name? = t.name? := by
  rw [name?, name?, lexeme_congr h]

theorem nameOf_congr (h : t'.bare = t.bare) {id : String} (hid : nameOf t = .ok id) :
    nameOf t' = .ok id := by
  rw [nameOf, name?_congr h, nameOf_eq_ok hid]

end Token

theorem ValueType.ofLiteral_congr {t t' : Token} (h : t'.bare = t.bare) {ty : ValueType}
    (hty : ofLiteral t = .ok ty) : ofLiteral t' = .ok ty := by
  unfold ofLiteral at hty ⊢
  rw [Token.lexeme_congr h]
  split at hty <;> first | exact hty | cases hty

/-! ### Annotations -/

namespace Annotation

variable {a a' : Annotation}

theorem name_congr (h : a'.bare = a.bare) : a'.name.bare = a.name.bare := congrArg name h

theorem dims_congr (h : a'.bare = a.bare) : a'.dims.map (·.1) = a.dims.map (·.1) := by
  have hd := congrArg (fun b : Annotation => b.dims.map (·.1)) h
  simpa [bare, Function.comp_def] using hd

theorem primitive?_congr (h : a'.bare = a.bare) : a'.primitive? = a.primitive? := by
  rw [primitive?, primitive?, Token.lexeme_congr (name_congr h)]

theorem baseName_congr (h : a'.bare = a.bare) : a'.baseName = a.baseName := by
  rw [baseName, baseName, Token.lexeme_congr (name_congr h)]

theorem isArray_congr (h : a'.bare = a.bare) : a'.isArray = a.isArray := by
  have hd := congrArg List.isEmpty (dims_congr h)
  rw [List.isEmpty_map, List.isEmpty_map] at hd
  rw [isArray, isArray, hd]

theorem type_congr (h : a'.bare = a.bare) : a'.type = a.type := by
  have hdims : a'.dims.map (·.1.toNat) = a.dims.map (·.1.toNat) := by
    have hd := congrArg (List.map Int.toNat) (dims_congr h)
    simpa [Function.comp_def] using hd
  rw [type, type, isArray_congr h, base, base, primitive?_congr h, baseName_congr h, hdims]

end Annotation

namespace Check

open Annotation (primitive?_congr baseName_congr isArray_congr dims_congr)

/-- Whether dimensions are right does not depend on their places. -/
theorem dimensions_congr {ds ds' : List (Int × Position)} (h : ds'.map (·.1) = ds.map (·.1))
    {ns : List Nat} (hd : dimensions ds = .ok ns) : dimensions ds' = .ok ns := by
  induction ds generalizing ds' ns with
  | nil =>
    rw [List.map_nil, List.map_eq_nil_iff] at h
    rw [h, hd]
  | cons d ds ih =>
    obtain ⟨d', ds', rfl, hfirst, hrest⟩ := List.map_eq_cons_iff.mp h
    obtain ⟨v, p⟩ := d
    obtain ⟨v', p'⟩ := d'
    cases hfirst
    unfold dimensions at hd ⊢
    split
    · next hv => simp [hv] at hd
    · next hv =>
      rw [if_neg hv] at hd
      split at hd
      · next ns' hns' =>
        rw [ih hrest hns']
        exact hd
      · cases hd

/-- Annotations with one bare form stand for the same type. -/
theorem Resolves.congr {known : String → Prop} {a a' : Annotation} {t : ValueType}
    (h : a'.bare = a.bare) (hr : Resolves known a t) : Resolves known a' t := by
  obtain ⟨base, hbase, harray⟩ := hr
  refine ⟨base, ?_, ?_⟩
  · rw [primitive?_congr h, baseName_congr h]
    exact hbase
  · rw [isArray_congr h]
    split
    · next ha =>
      rw [if_pos ha] at harray
      obtain ⟨ds, hds, ht⟩ := harray
      exact ⟨ds, dimensions_congr (dims_congr h) hds, ht⟩
    · next ha => rwa [if_neg ha] at harray

end Check

/-! ### Expressions of one form -/

namespace Expr

variable {e e' : Expr}

theorem of_bare_literal {id : Nat} {t : Token} (h : e'.bare = (literal id t).bare) :
    ∃ id' t', e' = literal id' t' ∧ t'.bare = t.bare := by
  cases e' with
  | literal id' t' => exact ⟨id', t', rfl, (literal.inj h).2⟩
  | _ => cases h

theorem of_bare_ident {id : Nat} {t : Token} (h : e'.bare = (ident id t).bare) :
    ∃ id' t', e' = ident id' t' ∧ t'.bare = t.bare := by
  cases e' with
  | ident id' t' => exact ⟨id', t', rfl, (ident.inj h).2⟩
  | _ => cases h

theorem of_bare_unary {id : Nat} {op : Token} {operand : Expr}
    (h : e'.bare = (unary id op operand).bare) :
    ∃ id' op' operand', e' = unary id' op' operand' ∧ op'.bare = op.bare ∧
      operand'.bare = operand.bare := by
  cases e' with
  | unary id' op' operand' => exact ⟨id', op', operand', rfl, (unary.inj h).2⟩
  | _ => cases h

theorem of_bare_binary {id : Nat} {left right : Expr} {op : Token}
    (h : e'.bare = (binary id left op right).bare) :
    ∃ id' left' op' right', e' = binary id' left' op' right' ∧ left'.bare = left.bare ∧
      op'.bare = op.bare ∧ right'.bare = right.bare := by
  cases e' with
  | binary id' left' op' right' => exact ⟨id', left', op', right', rfl, (binary.inj h).2⟩
  | _ => cases h

theorem of_bare_call {id : Nat} {callee : Token} {args : List Expr}
    (h : e'.bare = (call id callee args).bare) :
    ∃ id' callee' args', e' = call id' callee' args' ∧ callee'.bare = callee.bare ∧
      bareAll args' = bareAll args := by
  cases e' with
  | call id' callee' args' => exact ⟨id', callee', args', rfl, (call.inj h).2⟩
  | _ => cases h

theorem of_bare_index {id : Nat} {target subscript : Expr} {bracket : Token}
    (h : e'.bare = (index id target bracket subscript).bare) :
    ∃ id' target' bracket' subscript', e' = index id' target' bracket' subscript' ∧
      target'.bare = target.bare ∧ bracket'.bare = bracket.bare ∧
      subscript'.bare = subscript.bare := by
  cases e' with
  | index id' target' bracket' subscript' =>
    exact ⟨id', target', bracket', subscript', rfl, (index.inj h).2⟩
  | _ => cases h

theorem bareAll_eq (es : List Expr) : bareAll es = es.map bare := by
  induction es with
  | nil => rfl
  | cons e es ih => rw [bareAll, List.map_cons, ih]

theorem length_congr {es es' : List Expr} (h : bareAll es' = bareAll es) : es'.length = es.length := by
  simpa [bareAll_eq] using congrArg List.length h

theorem isAccess_congr {op op' : Token} (h : op'.bare = op.bare) : isAccess op' = isAccess op := by
  rw [isAccess, isAccess, Token.lexeme_congr h]

/-- The variable behind an expression has its name from the bare form. -/
theorem root?_bare : ∀ e : Expr, e.bare.root? = e.root?.map Token.bare
  | literal _ _ => rfl
  | ident _ _ => rfl
  | unary _ _ _ => rfl
  | call _ _ _ => rfl
  | binary _ left op _ => by
    have haccess : isAccess op.bare = isAccess op := rfl
    simp only [bare, root?, haccess, root?_bare left]
    split <;> rfl
  | index _ target _ _ => by simpa only [bare, root?] using root?_bare target

theorem root?_congr (h : e'.bare = e.bare) : e'.root?.map Token.bare = e.root?.map Token.bare := by
  rw [← root?_bare, h, root?_bare]

theorem integer?_bare (e : Expr) : e.bare.integer? = e.integer? := by
  cases e with
  | literal id token =>
    obtain ⟨lexeme, p⟩ := token
    cases lexeme <;> rfl
  | _ => rfl

theorem integer?_congr (h : e'.bare = e.bare) : e'.integer? = e.integer? := by
  rw [← integer?_bare, h, integer?_bare]

end Expr

/-! ### Statements of one form -/

namespace Stmt

variable {st' : Stmt}

theorem of_bare_varDecl {d : VariableDecl} (h : st'.bare = (varDecl d).bare) :
    ∃ d', st' = varDecl d' ∧ d'.bare = d.bare := by
  cases st' with
  | varDecl d' => exact ⟨d', rfl, varDecl.inj h⟩
  -- The bare form of a branch is known once it is known whether it has a second block.
  | branch t c b o => cases o <;> cases h
  | _ => cases h

theorem of_bare_constDecl {d : ConstantDecl} (h : st'.bare = (constDecl d).bare) :
    ∃ d', st' = constDecl d' ∧ d'.bare = d.bare := by
  cases st' with
  | constDecl d' => exact ⟨d', rfl, constDecl.inj h⟩
  | branch t c b o => cases o <;> cases h
  | _ => cases h

theorem of_bare_typeDef {d : TypeDef} (h : st'.bare = (typeDef d).bare) :
    ∃ d', st' = typeDef d' ∧ d'.bare = d.bare := by
  cases st' with
  | typeDef d' => exact ⟨d', rfl, typeDef.inj h⟩
  | branch t c b o => cases o <;> cases h
  | _ => cases h

theorem of_bare_assign {target value : Expr} {op : Token}
    (h : st'.bare = (assign target op value).bare) :
    ∃ target' op' value', st' = assign target' op' value' ∧ target'.bare = target.bare ∧
      op'.bare = op.bare ∧ value'.bare = value.bare := by
  cases st' with
  | assign target' op' value' => exact ⟨target', op', value', rfl, assign.inj h⟩
  | branch t c b o => cases o <;> cases h
  | _ => cases h

theorem of_bare_expr {e : Expr} (h : st'.bare = (expr e).bare) :
    ∃ e', st' = expr e' ∧ e'.bare = e.bare := by
  cases st' with
  | expr e' => exact ⟨e', rfl, expr.inj h⟩
  | branch t c b o => cases o <;> cases h
  | _ => cases h

theorem of_bare_branch {t : Token} {c : Expr} {b : Block}
    (h : st'.bare = (branch t c b none).bare) :
    ∃ t' c' b', st' = branch t' c' b' none ∧ c'.bare = c.bare ∧ b'.bare = b.bare := by
  cases st' with
  | branch t' c' b' o =>
    cases o with
    | none =>
      obtain ⟨_, hc, hb, _⟩ := branch.inj h
      exact ⟨t', c', b', rfl, hc, hb⟩
    | some => cases (branch.inj h).2.2.2
  | _ => cases h

theorem of_bare_branchElse {t : Token} {c : Expr} {b o : Block}
    (h : st'.bare = (branch t c b (some o)).bare) :
    ∃ t' c' b' o', st' = branch t' c' b' (some o') ∧ c'.bare = c.bare ∧ b'.bare = b.bare ∧
      o'.bare = o.bare := by
  cases st' with
  | branch t' c' b' o' =>
    cases o' with
    | none => cases (branch.inj h).2.2.2
    | some o' =>
      obtain ⟨_, hc, hb, ho⟩ := branch.inj h
      exact ⟨t', c', b', o', rfl, hc, hb, Option.some.inj ho⟩
  | _ => cases h

theorem of_bare_loop {t : Token} {c : Expr} {b : Block} (h : st'.bare = (loop t c b).bare) :
    ∃ t' c' b', st' = loop t' c' b' ∧ c'.bare = c.bare ∧ b'.bare = b.bare := by
  cases st' with
  | loop t' c' b' => exact ⟨t', c', b', rfl, (loop.inj h).2⟩
  | branch t c b o => cases o <;> cases h
  | _ => cases h

theorem of_bare_ret {t : Token} {value : Option Expr} (h : st'.bare = (ret t value).bare) :
    ∃ t' value', st' = ret t' value' ∧ value'.map Expr.bare = value.map Expr.bare := by
  cases st' with
  | ret t' value' => exact ⟨t', value', rfl, (ret.inj h).2⟩
  | branch t c b o => cases o <;> cases h
  | _ => cases h

theorem of_bare_block {b : Block} (h : st'.bare = (block b).bare) :
    ∃ b', st' = block b' ∧ b'.bare = b.bare := by
  cases st' with
  | block b' => exact ⟨b', rfl, block.inj h⟩
  | branch t c b o => cases o <;> cases h
  | _ => cases h

end Stmt

/-! ### Paths to a return -/

mutual

theorem Stmt.alwaysReturns_bare : ∀ st : Stmt, st.bare.alwaysReturns = st.alwaysReturns
  | .varDecl _ => rfl
  | .constDecl _ => rfl
  | .typeDef _ => rfl
  | .assign _ _ _ => rfl
  | .expr _ => rfl
  | .branch _ _ _ none => rfl
  | .branch _ _ thenBlock (some elseBlock) => by
    simp only [Stmt.bare, Stmt.alwaysReturns, Block.alwaysReturns_bare thenBlock,
      Block.alwaysReturns_bare elseBlock]
  | .loop _ _ _ => rfl
  | .ret _ _ => rfl
  | .block b => by simp only [Stmt.bare, Stmt.alwaysReturns, Block.alwaysReturns_bare b]

theorem Block.alwaysReturns_bare : ∀ b : Block, b.bare.alwaysReturns = b.alwaysReturns
  | ⟨_, _, body⟩ => by
    simp only [Block.bare, Block.alwaysReturns]
    exact lastReturns_bareAll body

theorem lastReturns_bareAll : ∀ body : List Stmt,
    lastReturns (Stmt.bareAll body) = lastReturns body
  | [] => rfl
  | [st] => by simp only [Stmt.bareAll, lastReturns, Stmt.alwaysReturns_bare st]
  | _ :: st :: rest => by
    have h := lastReturns_bareAll (st :: rest)
    simpa only [Stmt.bareAll, lastReturns] using h

end

theorem Block.alwaysReturns_congr {b b' : Block} (h : b'.bare = b.bare) :
    b'.alwaysReturns = b.alwaysReturns := by
  rw [← b'.alwaysReturns_bare, h, b.alwaysReturns_bare]

end StoragePlan
