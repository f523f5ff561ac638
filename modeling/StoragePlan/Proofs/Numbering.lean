import StoragePlan.Proofs.Ends
import StoragePlan.SourceFile
import StoragePlan.Token.Scan

/-!
The numbers of the nodes. A reader hands out numbers in the order in which it completes nodes, so
the nodes of a file have the numbers from zero up, each once: operands before their operators, and
what stands earlier in the text before what stands later.
-/

namespace StoragePlan

/-! ### Nodes -/

mutual

/-- The nodes of an expression that have a type, operands first. The name of a field has none. -/
def Expr.nodes : Expr → List Expr
  | .literal id t => [.literal id t]
  | .ident id t => [.ident id t]
  | .unary id op operand => operand.nodes ++ [.unary id op operand]
  | .binary id left op right =>
    left.nodes ++ ((if Expr.isAccess op then [] else right.nodes) ++ [.binary id left op right])
  | .call id callee args => Expr.nodesAll args ++ [.call id callee args]
  | .index id target bracket subscript =>
    target.nodes ++ (subscript.nodes ++ [.index id target bracket subscript])

def Expr.nodesAll : List Expr → List Expr
  | [] => []
  | e :: rest => e.nodes ++ Expr.nodesAll rest

end

mutual

/-- The numbers of all nodes of an expression, operands first. -/
def Expr.numbers : Expr → List Nat
  | .literal id _ => [id]
  | .ident id _ => [id]
  | .unary id _ operand => operand.numbers ++ [id]
  | .binary id left _ right => left.numbers ++ (right.numbers ++ [id])
  | .call id _ args => Expr.numbersAll args ++ [id]
  | .index id target _ subscript => target.numbers ++ (subscript.numbers ++ [id])

def Expr.numbersAll : List Expr → List Nat
  | [] => []
  | e :: rest => e.numbers ++ Expr.numbersAll rest

end

mutual

theorem Expr.nodes_sublist : ∀ e : Expr, (e.nodes.map Expr.id).Sublist e.numbers
  | .literal id t => .refl _
  | .ident id t => .refl _
  | .unary id op operand => by
    simp only [Expr.nodes, Expr.numbers, List.map_append]
    exact operand.nodes_sublist.append (.refl _)
  | .binary id left op right => by
    simp only [Expr.nodes, Expr.numbers, List.map_append]
    refine left.nodes_sublist.append (.append ?_ (.refl _))
    split
    · exact List.nil_sublist _
    · exact right.nodes_sublist
  | .call id callee args => by
    simp only [Expr.nodes, Expr.numbers, List.map_append]
    exact (Expr.nodesAll_sublist args).append (.refl _)
  | .index id target bracket subscript => by
    simp only [Expr.nodes, Expr.numbers, List.map_append]
    exact target.nodes_sublist.append (subscript.nodes_sublist.append (.refl _))

theorem Expr.nodesAll_sublist : ∀ es : List Expr,
    ((Expr.nodesAll es).map Expr.id).Sublist (Expr.numbersAll es)
  | [] => .refl _
  | e :: rest => by
    simp only [Expr.nodesAll, Expr.numbersAll, List.map_append]
    exact e.nodes_sublist.append (Expr.nodesAll_sublist rest)

end

/-- The nodes of the operands of an expression. -/
def Expr.operands : Expr → List Expr
  | .literal _ _ => []
  | .ident _ _ => []
  | .unary _ _ operand => operand.nodes
  | .binary _ left op right => left.nodes ++ (if Expr.isAccess op then [] else right.nodes)
  | .call _ _ args => Expr.nodesAll args
  | .index _ target _ subscript => target.nodes ++ subscript.nodes

theorem Expr.nodes_eq (e : Expr) : e.nodes = e.operands ++ [e] := by
  cases e <;> simp [Expr.nodes, Expr.operands]

theorem Expr.nodesAll_eq (es : List Expr) : Expr.nodesAll es = es.flatMap Expr.nodes := by
  induction es with
  | nil => rfl
  | cons e es ih => rw [Expr.nodesAll, List.flatMap_cons, ih]

theorem Expr.nodesAll_append (es es' : List Expr) :
    Expr.nodesAll (es ++ es') = Expr.nodesAll es ++ Expr.nodesAll es' := by
  simp only [Expr.nodesAll_eq, List.flatMap_append]

theorem Expr.nodesAll_singleton (e : Expr) : Expr.nodesAll [e] = e.nodes := by
  rw [Expr.nodesAll, Expr.nodesAll, List.append_nil]

theorem Expr.numbersAll_eq (es : List Expr) : Expr.numbersAll es = es.flatMap Expr.numbers := by
  induction es with
  | nil => rfl
  | cons e es ih => rw [Expr.numbersAll, List.flatMap_cons, ih]

theorem Expr.numbersAll_append (es es' : List Expr) :
    Expr.numbersAll (es ++ es') = Expr.numbersAll es ++ Expr.numbersAll es' := by
  simp only [Expr.numbersAll_eq, List.flatMap_append]

mutual

/-- The expressions of a statement, in the order of the text. -/
def Stmt.exprs : Stmt → List Expr
  | .varDecl d => d.value.toList
  | .constDecl d => [d.value]
  | .typeDef _ => []
  | .assign target _ value => [target, value]
  | .expr e => [e]
  | .branch _ c thenBlock none => c :: thenBlock.exprs
  | .branch _ c thenBlock (some elseBlock) => c :: (thenBlock.exprs ++ elseBlock.exprs)
  | .loop _ c body => c :: body.exprs
  | .ret _ value => value.toList
  | .block b => b.exprs

def Block.exprs : Block → List Expr
  | ⟨_, _, body⟩ => Stmt.exprsAll body

def Stmt.exprsAll : List Stmt → List Expr
  | [] => []
  | st :: rest => st.exprs ++ Stmt.exprsAll rest

end

/-- The initializer of a global variable or constant. -/
def Item.initializer : Item → List Expr
  | .varDecl d => d.value.toList
  | .constDecl d => [d.value]
  | _ => []

/-- The expressions of a part of a file, in the order of the text. -/
def Item.exprs : Item → List Expr
  | .function d => d.body.exprs
  | i => i.initializer

namespace SourceFile

def exprs (f : SourceFile) : List Expr := f.items.flatMap Item.exprs

/-- The nodes of a file that have a type. -/
def nodes (f : SourceFile) : List Expr := Expr.nodesAll f.exprs

/-- The numbers of all nodes of a file. -/
def numbers (f : SourceFile) : List Nat := Expr.numbersAll f.exprs

end SourceFile

/-! ### Readers -/

/-- The numbers from `n` up to `m`, in order. -/
def Span (n m : Nat) (ns : List Nat) : Prop := n ≤ m ∧ ns = List.range' n (m - n)

theorem Span.nil (n : Nat) : Span n n [] := by simp [Span]

theorem Span.single (n : Nat) : Span n (n + 1) [n] := by simp [Span]

theorem Span.append {n m k : Nat} {ns ms : List Nat} (h : Span n m ns) (h' : Span m k ms) :
    Span n k (ns ++ ms) := by
  obtain ⟨hnm, rfl⟩ := h
  obtain ⟨hmk, rfl⟩ := h'
  refine ⟨Nat.le_trans hnm hmk, ?_⟩
  have hsplit : k - n = (m - n) + (k - m) := by omega
  have hstart : m = n + (m - n) := by omega
  rw [hsplit, ← List.range'_append_1, ← hstart]

theorem Span.eq_of_nil {n m : Nat} (h : Span n m []) : m = n := by
  obtain ⟨hnm, hnil⟩ := h
  have hlen := congrArg List.length hnil
  simp only [List.length_nil, List.length_range'] at hlen
  omega

/-- A reader that starts with the number `n` answers what goes with the next number after it. -/
def Counts {α : Type} (n : Nat) (x : Reader α) (P : α → Nat → Prop) : Prop :=
  ∀ c : Cursor, c.nextId = n → Ends x c (fun a c' => P a c'.nextId) (fun _ _ => True)

/-- A reader hands out the numbers `numbers` of what it answers. -/
def Numbered {α : Type} (x : Reader α) (numbers : α → List Nat) : Prop :=
  ∀ n, Counts n x fun a m => Span n m (numbers a)

/-- A reader hands out no numbers. -/
abbrev Unnumbered {α : Type} (x : Reader α) : Prop := Numbered x fun _ => []

namespace Counts

variable {α β : Type} {n : Nat} {x : Reader α} {f : α → Reader β} {P : α → Nat → Prop}
  {Q : β → Nat → Prop}

theorem pure {a : α} (h : P a n) : Counts n (Pure.pure a) P := by
  rintro c rfl
  exact Ends.pure h

theorem throw (e : ParseFault) : Counts n (MonadExcept.throw e) P := fun _ _ => Ends.throw trivial

theorem fail (p : Position) (e : ParseError) : Counts n (Reader.fail p e) P := throw _

theorem mono {P' : α → Nat → Prop} (h : Counts n x P) (hp : ∀ a m, P a m → P' a m) :
    Counts n x P' := fun c hc => (h c hc).mono (fun a _ ha => hp a _ ha) (fun _ _ h => h)

theorem bind (hx : Counts n x P) (hf : ∀ a m, P a m → Counts m (f a) Q) :
    Counts n (x >>= f) Q := by
  intro c hc
  refine (hx c hc).seq (fun _ _ h => h) ?_
  intro a c' ha
  exact hf a c'.nextId ha c' rfl

theorem get {f : Cursor → Reader β} (hf : ∀ c, Counts n (f c) Q) :
    Counts n (MonadState.get >>= f) Q := fun c hc => Ends.bind (Ends.get (hf c c hc))

theorem newId {f : Nat → Reader β} (hf : Counts (n + 1) (f n) Q) :
    Counts n (Reader.newId >>= f) Q := by
  rintro c rfl
  exact Ends.bind (hf { c with nextId := c.nextId + 1 } rfl)

theorem map {g : α → β} (hx : Counts n x fun a m => Q (g a) m) : Counts n (g <$> x) Q :=
  fun c hc => Ends.map (hx c hc)

/-- What is read without numbers leaves the next number as it is. -/
theorem skip (hx : Unnumbered x) (hf : ∀ a, Counts n (f a) Q) : Counts n (x >>= f) Q := by
  refine (hx n).bind fun a m h => ?_
  rw [h.eq_of_nil]
  exact hf a

end Counts

namespace Reader

theorem unnumbered_nextIf? (test : Token → Bool) : Unnumbered (nextIf? test) := by
  rintro n c rfl
  unfold Ends nextIf?
  split
  · next a c' hx =>
    split at hx
    · cases hx
      exact .nil _
    · split at hx
      · cases hx
        exact .nil _
      · cases hx
        exact .nil _
  · trivial

theorem unnumbered_accept? (l : Lexeme) : Unnumbered (accept? l) := unnumbered_nextIf? _

theorem unnumbered_acceptAny? (set : List Lexeme) : Unnumbered (acceptAny? set) :=
  unnumbered_nextIf? _

theorem unnumbered_acceptName? : Unnumbered acceptName? := unnumbered_nextIf? _

theorem unnumbered_require (l : Lexeme) : Unnumbered (require l) := by
  intro n
  refine .skip (unnumbered_accept? l) fun o => ?_
  cases o with
  | none => exact .get fun c => .throw _
  | some t => exact .pure (.nil n)

end Reader

open Reader

/-- The numbers of what was read, if anything was. -/
def numbers? {α : Type} (numbers : α → List Nat) : Option α → List Nat
  | none => []
  | some a => numbers a

theorem numbered_nothing {α : Type} {x : Reader (Option α)} (h : Unnumbered x) :
    Numbered x (numbers? fun _ => []) := by
  intro n
  refine (h n).mono fun o m ho => ?_
  cases o <;> exact ho

/-! ### Expressions -/

namespace Expr

variable {sub : Reader (Option Expr)}

theorem numbered_required (hs : Numbered sub (numbers? numbers)) (after : Token) :
    Numbered (required sub after) numbers := by
  intro n
  refine (hs n).bind fun o m h => ?_
  cases o with
  | none => exact .get fun c => .fail _ _
  | some e => exact .pure h

theorem numbered_arguments (hs : Numbered sub (numbers? numbers)) (k : Nat) :
    Numbered (arguments sub k) numbersAll := by
  induction k with
  | zero => exact fun n => .pure (.nil n)
  | succ k ih =>
    intro n
    refine (hs n).bind fun o m h => ?_
    cases o with
    | none => exact .pure h
    | some e =>
      refine .skip (unnumbered_accept? _) fun o => ?_
      cases o with
      | none => exact .pure (h.append (.nil m))
      | some t => exact (ih m).bind fun es l h' => .pure (h.append h')

theorem numbered_callOf (hs : Numbered sub (numbers? numbers)) :
    Numbered (callOf sub) (numbers? numbers) := by
  intro n
  refine .skip unnumbered_acceptName? fun o => ?_
  cases o with
  | none => exact .pure (.nil n)
  | some callee =>
    refine .skip (unnumbered_require _) fun _ => .get fun c => ?_
    refine (numbered_arguments hs _ n).bind fun args m h => ?_
    exact .skip (unnumbered_require _) fun _ => .newId (.pure (h.append (.single m)))

theorem numbered_primary (hs : Numbered sub (numbers? numbers)) :
    Numbered (primary sub) (numbers? numbers) := by
  intro n
  refine .skip (unnumbered_accept? _) fun o => ?_
  cases o with
  | some paren =>
    refine (numbered_required hs paren n).bind fun e m h => ?_
    exact .skip (unnumbered_require _) fun _ => .pure h
  | none =>
    refine .get fun c => ?_
    split
    · exact numbered_callOf hs n
    · refine .skip (unnumbered_acceptAny? _) fun o => ?_
      cases o with
      | some t => exact .newId (.pure (.single n))
      | none =>
        refine .skip unnumbered_acceptName? fun o => ?_
        cases o with
        | some t => exact .newId (.pure (.single n))
        | none => exact .pure (.nil n)

/-- The suffixes of an expression with the numbers from `a` on continue its numbers. -/
theorem counts_suffixes (hs : Numbered sub (numbers? numbers)) (k : Nat) {a n : Nat} {e : Expr}
    (he : Span a n e.numbers) : Counts n (suffixes sub k e) fun e' m => Span a m e'.numbers := by
  induction k generalizing n e with
  | zero => exact .pure he
  | succ k ih =>
    refine .skip (unnumbered_accept? _) fun o => ?_
    cases o with
    | some op =>
      refine .skip unnumbered_acceptName? fun o => ?_
      cases o with
      | some field =>
        refine .newId (.newId (ih ?_))
        exact he.append ((Span.single n).append (.single (n + 1)))
      | none => exact .fail _ _
    | none =>
      refine .skip (unnumbered_accept? _) fun o => ?_
      cases o with
      | some bracket =>
        refine (numbered_required hs bracket n).bind fun i m h => ?_
        refine .skip (unnumbered_require _) fun _ => .newId (ih ?_)
        exact he.append (h.append (.single m))
      | none => exact .pure he

theorem numbered_suffixed (hs : Numbered sub (numbers? numbers)) :
    Numbered (suffixed sub) (numbers? numbers) := by
  intro n
  refine (numbered_primary hs n).bind fun o m h => ?_
  cases o with
  | none => exact .pure h
  | some e => exact .get fun c => (counts_suffixes hs _ h).bind fun e' l h' => .pure h'

theorem counts_applyUnary (op : Token) {a n : Nat} {operand : Expr}
    (h : Span a n operand.numbers) :
    Counts n (applyUnary op operand) fun e m => Span a m e.numbers := by
  unfold applyUnary
  split
  · exact .pure h
  · exact .newId (.pure (h.append (.single n)))

theorem numbered_unaryOf (hs : Numbered sub (numbers? numbers)) (k : Nat) :
    Numbered (unaryOf sub k) (numbers? numbers) := by
  induction k with
  | zero => exact numbered_suffixed hs
  | succ k ih =>
    intro n
    refine .skip (unnumbered_acceptAny? _) fun o => ?_
    cases o with
    | none => exact numbered_suffixed hs n
    | some op =>
      refine (ih n).bind fun o m h => ?_
      cases o with
      | none => exact .fail _ _
      | some operand => exact (counts_applyUnary op h).bind fun e l h' => .pure h'

theorem numbered_operandOf (hs : Numbered sub (numbers? numbers)) :
    Numbered (operandOf sub) (numbers? numbers) := fun n => .get fun _ => numbered_unaryOf hs _ n

/-- What joins an expression with the numbers from `a` on continues its numbers. -/
theorem counts_climb {operand : Reader (Option Expr)} (ho : Numbered operand (numbers? numbers))
    (k least : Nat) {a n : Nat} {left : Expr} (hl : Span a n left.numbers) :
    Counts n (climb operand k least left) fun e m => Span a m e.numbers := by
  induction k generalizing least a n left with
  | zero => exact .pure hl
  | succ k ih =>
    refine .skip (unnumbered_nextIf? _) fun o => ?_
    cases o with
    | none => exact .pure hl
    | some op =>
      refine (ho n).bind fun o m h => ?_
      cases o with
      | none => exact .fail _ _
      | some first =>
        refine (ih _ h).bind fun right l hr => .newId (ih _ ?_)
        exact hl.append (hr.append (.single l))

theorem numbered_binaryOf (hs : Numbered sub (numbers? numbers)) (least : Nat) :
    Numbered (binaryOf sub least) (numbers? numbers) := by
  intro n
  refine (numbered_operandOf hs n).bind fun o m h => ?_
  cases o with
  | none => exact .pure h
  | some first =>
    exact .get fun c => (counts_climb (numbered_operandOf hs) _ _ h).bind fun e l h' => .pure h'

theorem numbered_nested (depth : Nat) : Numbered (nested depth) (numbers? numbers) := by
  induction depth with
  | zero => exact fun n => .pure (.nil n)
  | succ depth ih => exact numbered_binaryOf ih 1

theorem numbered_read? : Numbered read? (numbers? numbers) :=
  fun n => .get fun _ => numbered_nested _ n

theorem numbered_readAfter (after : Token) : Numbered (readAfter after) numbers :=
  numbered_required numbered_read? after

end Expr

/-! ### Declarations -/

theorem Annotation.unnumbered_dimensions (k : Nat) : Unnumbered (dimensions k) := by
  induction k with
  | zero => exact fun n => .pure (.nil n)
  | succ k ih =>
    intro n
    refine .skip (unnumbered_accept? _) fun o => ?_
    cases o with
    | none => exact .pure (.nil n)
    | some bracket =>
      refine .skip (unnumbered_accept? _) fun o => ?_
      split
      · exact .skip (unnumbered_require _) fun _ => .skip ih fun _ => .pure (.nil n)
      · exact .fail _ _

theorem Annotation.unnumbered_read? : Unnumbered Annotation.read? := by
  intro n
  refine .skip (unnumbered_acceptAny? _) fun o => ?_
  cases o with
  | none => exact .pure (.nil n)
  | some name => exact .get fun c => .skip (unnumbered_dimensions _) fun _ => .pure (.nil n)

theorem Annotation.unnumbered_readAfter (after : Token) : Unnumbered (readAfter after) := by
  intro n
  refine .skip unnumbered_read? fun o => ?_
  cases o with
  | none => exact .get fun c => .fail _ _
  | some a => exact .pure (.nil n)

theorem Annotation.unnumbered_readAfterColon : Unnumbered Annotation.readAfterColon :=
  fun n => .skip (unnumbered_require _) fun colon => unnumbered_readAfter colon n

theorem unnumbered_nameAfter (after : Token) : Unnumbered (nameAfter after) := by
  intro n
  refine .skip unnumbered_acceptName? fun o => ?_
  cases o with
  | none => exact .get fun c => .fail _ _
  | some name => exact .pure (.nil n)

theorem Field.unnumbered_readMany (k : Nat) : Unnumbered (Field.readMany k) := by
  induction k with
  | zero => exact fun n => .pure (.nil n)
  | succ k ih =>
    intro n
    refine .skip unnumbered_acceptName? fun o => ?_
    cases o with
    | none => exact .pure (.nil n)
    | some name =>
      refine .skip Annotation.unnumbered_readAfterColon fun a => ?_
      refine .skip (unnumbered_accept? _) fun o => ?_
      cases o with
      | none => exact .pure (.nil n)
      | some comma => exact .skip ih fun _ => .pure (.nil n)

theorem Field.unnumbered_readBetween (opening closing : Mark) :
    Unnumbered (Field.readBetween opening closing) := fun n =>
  .skip (unnumbered_require _) fun _ => .get fun _ => .skip (unnumbered_readMany _) fun _ =>
    .skip (unnumbered_require _) fun _ => .pure (.nil n)

theorem TypeDef.unnumbered_read? (exported : Bool) : Unnumbered (TypeDef.read? exported) := by
  intro n
  refine .skip (unnumbered_accept? _) fun o => ?_
  cases o with
  | none => exact .pure (.nil n)
  | some token =>
    refine .skip (unnumbered_nameAfter token) fun name => ?_
    exact .skip (Field.unnumbered_readBetween _ _) fun _ => .pure (.nil n)

/-- The numbers of all nodes of some expressions that something is made of. -/
def numbersOf {α : Type} (exprs : α → List Expr) (a : α) : List Nat := Expr.numbersAll (exprs a)

theorem VariableDecl.numbered_read? (exported : Bool) :
    Numbered (VariableDecl.read? exported) (numbers? (numbersOf fun d => d.value.toList)) := by
  intro n
  refine .skip (unnumbered_accept? _) fun o => ?_
  cases o with
  | none => exact .pure (.nil n)
  | some token =>
    refine .skip (unnumbered_nameAfter token) fun name => ?_
    refine .skip Annotation.unnumbered_readAfterColon fun a => ?_
    refine .skip (unnumbered_accept? _) fun o => ?_
    cases o with
    | none =>
      refine (Counts.pure (P := fun v m => Span n m (Expr.numbersAll v.toList)) (.nil n)).bind ?_
      exact fun v m h => .skip (unnumbered_require _) fun _ => .pure h
    | some assign =>
      refine Counts.bind (P := fun v m => Span n m (Expr.numbersAll v.toList))
        ((Expr.numbered_readAfter assign n).mono fun e m h => ?_).map fun v m h => ?_
      · exact h.append (.nil m)
      · exact .skip (unnumbered_require _) fun _ => .pure h

theorem ConstantDecl.numbered_read? (exported : Bool) :
    Numbered (ConstantDecl.read? exported) (numbers? (numbersOf fun d => [d.value])) := by
  intro n
  refine .skip (unnumbered_accept? _) fun o => ?_
  cases o with
  | none => exact .pure (.nil n)
  | some token =>
    refine .skip (unnumbered_nameAfter token) fun name => ?_
    refine .skip Annotation.unnumbered_readAfterColon fun a => ?_
    refine .skip (unnumbered_require _) fun assign => ?_
    refine (Expr.numbered_readAfter assign n).bind fun v m h => ?_
    exact .skip (unnumbered_require _) fun _ => .pure (h.append (.nil m))

/-! ### Statements -/

section Statements

variable {sub : Reader (Option Stmt)}

theorem Block.numbered_statements (hs : Numbered sub (numbers? (numbersOf Stmt.exprs))) (k : Nat) :
    Numbered (Block.statements sub k) (numbersOf Stmt.exprsAll) := by
  induction k with
  | zero => exact fun n => .pure (.nil n)
  | succ k ih =>
    intro n
    refine (hs n).bind fun o m h => ?_
    cases o with
    | none => exact .pure h
    | some st =>
      refine (ih m).bind fun ss l h' => .pure ?_
      rw [numbersOf, Stmt.exprsAll, Expr.numbersAll_append]
      exact h.append h'

theorem Block.numbered_readWith? (hs : Numbered sub (numbers? (numbersOf Stmt.exprs))) :
    Numbered (Block.readWith? sub) (numbers? (numbersOf Block.exprs)) := by
  intro n
  refine .skip (unnumbered_accept? _) fun o => ?_
  cases o with
  | none => exact .pure (.nil n)
  | some opening =>
    refine .get fun c => (Block.numbered_statements hs _ n).bind fun ss m h => ?_
    exact .skip (unnumbered_require _) fun _ => .pure h

theorem Block.numbered_requireWith (hs : Numbered sub (numbers? (numbersOf Stmt.exprs))) :
    Numbered (Block.requireWith sub) (numbersOf Block.exprs) := by
  intro n
  refine (Block.numbered_readWith? hs n).bind fun o m h => ?_
  cases o with
  | none => exact .get fun c => .throw _
  | some b => exact .pure h

namespace Stmt

theorem numbered_branchWith? (hs : Numbered sub (numbers? (numbersOf Stmt.exprs))) (k : Nat) :
    Numbered (branchWith? sub k) (numbers? (numbersOf fun b => b.toStmt.exprs)) := by
  induction k with
  | zero => exact fun n => .pure (.nil n)
  | succ k ih =>
    intro n
    refine .skip (unnumbered_accept? _) fun o => ?_
    cases o with
    | none => exact .pure (.nil n)
    | some token =>
      refine (Expr.numbered_readAfter token n).bind fun c m hc => ?_
      refine (Block.numbered_requireWith hs m).bind fun b l hb => ?_
      refine .skip (unnumbered_accept? _) fun o => ?_
      cases o with
      | none => exact .pure (hc.append hb)
      | some elseToken =>
        refine (ih l).bind fun o r h => ?_
        -- an `else if` is an `else` block that holds the branch alone
        cases o with
        | some inner =>
          refine .pure (hc.append ?_)
          rw [Branch.toElse, Block.exprs, exprsAll, exprsAll, List.append_nil,
            Expr.numbersAll_append]
          exact hb.append h
        | none =>
          rw [h.eq_of_nil]
          refine (Block.numbered_requireWith hs l).bind fun e r he => .pure (hc.append ?_)
          rw [Expr.numbersAll_append]
          exact hb.append he

theorem numbered_loopWith? (hs : Numbered sub (numbers? (numbersOf Stmt.exprs))) :
    Numbered (loopWith? sub) (numbers? (numbersOf Stmt.exprs)) := by
  intro n
  refine .skip (unnumbered_accept? _) fun o => ?_
  cases o with
  | none => exact .pure (.nil n)
  | some token =>
    refine (Expr.numbered_readAfter token n).bind fun c m hc => ?_
    exact (Block.numbered_requireWith hs m).bind fun b l hb => .pure (hc.append hb)

theorem numbered_ret? : Numbered ret? (numbers? (numbersOf Stmt.exprs)) := by
  intro n
  refine .skip (unnumbered_accept? _) fun o => ?_
  cases o with
  | none => exact .pure (.nil n)
  | some token =>
    refine (Expr.numbered_read? n).bind fun o m h => .skip (unnumbered_require _) fun _ => ?_
    cases o with
    | none => exact .pure h
    | some e => exact .pure (h.append (.nil m))

theorem numbered_simple? : Numbered simple? (numbers? (numbersOf Stmt.exprs)) := by
  intro n
  refine (Expr.numbered_read? n).bind fun o m h => ?_
  cases o with
  | none => exact .pure h
  | some e =>
    refine .skip (unnumbered_accept? _) fun o => ?_
    cases o with
    | none =>
      refine (Counts.pure (P := fun st l => Span n l (numbersOf Stmt.exprs st)) ?_).bind ?_
      · exact h.append (.nil m)
      · exact fun st l h' => .skip (unnumbered_require _) fun _ => .pure h'
    | some op =>
      dsimp only
      split
      · refine (Expr.numbered_readAfter op m).bind fun v l h' => ?_
        refine (Counts.pure (P := fun st l => Span n l (numbersOf Stmt.exprs st)) ?_).bind ?_
        · exact h.append (h'.append (.nil l))
        · exact fun st r h'' => .skip (unnumbered_require _) fun _ => .pure h''
      · exact (Counts.fail (P := fun _ _ => False) _ _).bind fun _ _ h => h.elim

theorem numbered_firstOf {α : Type} {numbers : α → List Nat} {rs : List (Reader (Option α))}
    (h : ∀ r ∈ rs, Numbered r (numbers? numbers)) : Numbered (firstOf rs) (numbers? numbers) := by
  induction rs with
  | nil => exact fun n => .pure (.nil n)
  | cons r rs ih =>
    rw [List.forall_mem_cons] at h
    intro n
    refine (h.1 n).bind fun o m ho => ?_
    cases o with
    | some a => exact .pure ho
    | none =>
      rw [ho.eq_of_nil]
      exact ih h.2 n

/-- What is read as one of several kinds. -/
theorem numbered_as {α β : Type} {numbers : α → List Nat} {numbers' : β → List Nat}
    {r : Reader (Option α)} {g : α → β} (h : Numbered r (numbers? numbers))
    (hg : ∀ a, numbers' (g a) = numbers a) : Numbered ((·.map g) <$> r) (numbers? numbers') := by
  intro n
  refine ((h n).mono fun o m ho => ?_).map
  cases o with
  | none => exact ho
  | some a =>
    rw [Option.map_some, numbers?, hg]
    exact ho

theorem numbered_readWith? (hs : Numbered sub (numbers? (numbersOf Stmt.exprs))) :
    Numbered (readWith? sub) (numbers? (numbersOf Stmt.exprs)) := by
  refine fun n => .get fun c => ?_
  split
  · exact .pure (.nil n)
  · have htype : Numbered (TypeDef.read? false) (numbers? fun _ => []) :=
      numbered_nothing (TypeDef.unnumbered_read? false)
    refine numbered_firstOf ?_ n
    simp only [List.forall_mem_cons]
    refine ⟨?_, ?_, ?_, ?_, numbered_loopWith? hs, numbered_ret?, ?_, numbered_simple?, by simp⟩
    · exact numbered_as (VariableDecl.numbered_read? false) fun _ => rfl
    · exact numbered_as (ConstantDecl.numbered_read? false) fun _ => rfl
    · exact numbered_as htype fun _ => rfl
    · exact numbered_as (numbered_branchWith? hs _) fun _ => rfl
    · exact numbered_as (Block.numbered_readWith? hs) fun _ => rfl

theorem numbered_nested (depth : Nat) :
    Numbered (nested depth) (numbers? (numbersOf Stmt.exprs)) := by
  induction depth with
  | zero => exact fun n => .pure (.nil n)
  | succ depth ih => exact numbered_readWith? ih

end Stmt

end Statements

theorem Block.numbered_read : Numbered Block.read (numbersOf Block.exprs) :=
  Block.numbered_requireWith fun n => .get fun _ => Stmt.numbered_nested _ n

/-! ### Files -/

theorem FunctionDef.numbered_read? (exported : Bool) :
    Numbered (FunctionDef.read? exported) (numbers? (numbersOf fun d => d.body.exprs)) := by
  intro n
  refine .skip (unnumbered_accept? _) fun o => ?_
  cases o with
  | none => exact .pure (.nil n)
  | some token =>
    refine .skip (unnumbered_nameAfter token) fun name => ?_
    refine .skip (Field.unnumbered_readBetween _ _) fun params => ?_
    refine .skip (unnumbered_accept? _) fun o => ?_
    cases o with
    | none => exact (Block.numbered_read n).bind fun body m h => .pure h
    | some arrow =>
      have hreturns : Unnumbered (some <$> Annotation.readAfter arrow) := fun n =>
        .map <| Annotation.unnumbered_readAfter arrow n
      refine Counts.skip hreturns fun returns => ?_
      exact (Block.numbered_read n).bind fun body m h => .pure h

namespace Item

theorem numbered_declaration? (exported : Bool) :
    Numbered (declaration? exported) (numbers? (numbersOf Item.exprs)) := by
  have htype : Numbered (TypeDef.read? exported) (numbers? fun _ => []) :=
    numbered_nothing (TypeDef.unnumbered_read? exported)
  refine Stmt.numbered_firstOf ?_
  simp only [List.forall_mem_cons]
  refine ⟨?_, ?_, ?_, ?_, by simp⟩
  · exact Stmt.numbered_as htype fun _ => rfl
  · exact Stmt.numbered_as (FunctionDef.numbered_read? exported) fun _ => rfl
  · exact Stmt.numbered_as (VariableDecl.numbered_read? exported) fun _ => rfl
  · exact Stmt.numbered_as (ConstantDecl.numbered_read? exported) fun _ => rfl

theorem unnumbered_import? : Unnumbered Import.read? := by
  intro n
  refine .skip (unnumbered_accept? _) fun o => ?_
  cases o with
  | none => exact .pure (.nil n)
  | some token =>
    refine .skip (unnumbered_accept? _) fun o => ?_
    split
    · exact .skip (unnumbered_require _) fun _ => .pure (.nil n)
    · exact .fail _ _

theorem numbered_read? : Numbered Item.read? (numbers? (numbersOf Item.exprs)) := by
  intro n
  refine .skip unnumbered_import? fun o => ?_
  cases o with
  | some i => exact .pure (.nil n)
  | none =>
    refine .skip (unnumbered_accept? _) fun o => ?_
    cases o with
    | none => exact numbered_declaration? false n
    | some token =>
      refine (numbered_declaration? true n).bind fun o m h => ?_
      cases o with
      | some item => exact .pure h
      | none => exact .get fun c => .fail _ _

theorem numbered_readAll (k : Nat) :
    Numbered (readAll k) (numbersOf fun is => is.flatMap Item.exprs) := by
  induction k with
  | zero => exact fun n => .pure (.nil n)
  | succ k ih =>
    refine fun n => .get fun c => ?_
    split
    · exact .pure (.nil n)
    · refine (numbered_read? n).bind fun o m h => ?_
      cases o with
      | none => exact .get fun c => .fail _ _
      | some item =>
        refine (ih m).bind fun is l h' => .pure ?_
        rw [numbersOf, List.flatMap_cons, Expr.numbersAll_append]
        exact h.append h'

end Item

/-- The nodes of a file have the numbers from zero up, in their order. -/
theorem SourceFile.parse_numbers {file : String} {tokens : List Token} {source : SourceFile}
    (h : SourceFile.parse file tokens = .ok source) :
    source.numbers = List.range source.numbers.length := by
  unfold SourceFile.parse at h
  split at h
  · next items c hr =>
    cases h
    obtain ⟨_, hspan⟩ := (Item.numbered_readAll _ 0 (.ofTokens tokens) rfl).ok hr
    rw [Nat.sub_zero, ← List.range_eq_range'] at hspan
    have hnumbers : SourceFile.numbers ⟨file, items⟩ = List.range c.nextId := hspan
    rw [hnumbers, List.length_range]
  · cases h

/-- No two nodes of a file share a number. -/
theorem SourceFile.parse_nodup {file : String} {tokens : List Token} {source : SourceFile}
    (h : SourceFile.parse file tokens = .ok source) : source.numbers.Nodup := by
  rw [parse_numbers h]
  exact List.nodup_range

/-! ### Order of the nodes -/

mutual

/-- All nodes of an expression, the names of fields among them, operands before what holds them. -/
def Expr.subtrees : Expr → List Expr
  | .literal id t => [.literal id t]
  | .ident id t => [.ident id t]
  | .unary id op operand => operand.subtrees ++ [.unary id op operand]
  | .binary id left op right => left.subtrees ++ (right.subtrees ++ [.binary id left op right])
  | .call id callee args => Expr.subtreesAll args ++ [.call id callee args]
  | .index id target bracket subscript =>
    target.subtrees ++ (subscript.subtrees ++ [.index id target bracket subscript])

def Expr.subtreesAll : List Expr → List Expr
  | [] => []
  | e :: rest => e.subtrees ++ Expr.subtreesAll rest

end

mutual

theorem Expr.map_id_subtrees : ∀ e : Expr, e.subtrees.map Expr.id = e.numbers
  | .literal id t => rfl
  | .ident id t => rfl
  | .unary id op operand => by
    rw [subtrees, numbers, List.map_append, operand.map_id_subtrees]
    rfl
  | .binary id left op right => by
    rw [subtrees, numbers, List.map_append, List.map_append, left.map_id_subtrees,
      right.map_id_subtrees]
    rfl
  | .call id callee args => by
    rw [subtrees, numbers, List.map_append, Expr.map_id_subtreesAll args]
    rfl
  | .index id target bracket subscript => by
    rw [subtrees, numbers, List.map_append, List.map_append, target.map_id_subtrees,
      subscript.map_id_subtrees]
    rfl

theorem Expr.map_id_subtreesAll : ∀ es : List Expr,
    (Expr.subtreesAll es).map Expr.id = Expr.numbersAll es
  | [] => rfl
  | e :: rest => by
    rw [subtreesAll, numbersAll, List.map_append, e.map_id_subtrees, Expr.map_id_subtreesAll rest]

end

namespace SourceFile

/-- All nodes of all expressions of a file, in the order of the text. -/
def subtrees (f : SourceFile) : List Expr := Expr.subtreesAll f.exprs

theorem map_id_subtrees (f : SourceFile) : f.subtrees.map Expr.id = f.numbers :=
  Expr.map_id_subtreesAll f.exprs

/-- Listed with operands first, the nodes of a file that is read have the numbers from zero up. -/
theorem ids_in_postorder {file : String} {tokens : List Token} {source : SourceFile}
    (h : parse file tokens = .ok source) :
    source.subtrees.map Expr.id = List.range source.subtrees.length ∧
    (source.subtrees.map Expr.id).Nodup := by
  have hlength : source.numbers.length = source.subtrees.length := by
    rw [← source.map_id_subtrees, List.length_map]
  rw [map_id_subtrees]
  constructor
  · rw [← hlength]
    exact parse_numbers h
  · exact parse_nodup h

/-- A sign that joins a number, a field and a subscript, a call, and a branch, over two items. -/
theorem ids_in_postorder_mixed :
    ∃ source, parse "main"
      (scan "var a: u8 = -1 + 2; fn f() \x7b if (g(a.b[3])) \x7b a = !a; \x7d \x7d").tokens =
        .ok source ∧ source.subtrees.map Expr.id = List.range 12 := by
  have hsample : (match parse "main"
      (scan "var a: u8 = -1 + 2; fn f() \x7b if (g(a.b[3])) \x7b a = !a; \x7d \x7d").tokens with
    | .ok source => source.subtrees.length == 12
    | .error _ => false) = true := by decide +kernel
  split at hsample
  · next source hparse =>
    have hlength : source.subtrees.length = 12 := beq_iff_eq.mp hsample
    have hids := (ids_in_postorder hparse).1
    rw [hlength] at hids
    exact ⟨source, hparse, hids⟩
  · cases hsample

end SourceFile

end StoragePlan
