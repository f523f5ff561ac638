import StoragePlan.Proofs.Derivations
import StoragePlan.Proofs.Numbering
import StoragePlan.Proofs.Tiling

/-!
The form of the expressions that are read from a text. The grammar says of a tree which tokens it
stands for; with tokens that can be spelled, every name in the tree is spelled as a name, and every
number has 32 bits. This holds of each expression in a file and of each of its nodes
(`wellFormed_of_parse`).
-/

namespace StoragePlan

open Grammar

namespace Expr

/-- The token is a name that is spelled as such. -/
def Named (t : Token) : Prop := ∃ id : String, t.lexeme = .name id ∧ Spells id.toList (.name id)

/-- An expression of the form in which it is read from a text: every token is one for its place,
and a minus before a number is part of the number. -/
inductive WellFormed : Expr → Prop
  | integer {id : Nat} {v : Int} {p : Position} :
    v.natAbs < 2 ^ 32 → WellFormed (.literal id ⟨.integer v, p⟩)
  | text (id : Nat) (s : String) (p : Position) : WellFormed (.literal id ⟨.text s, p⟩)
  | name {t : Token} (id : Nat) : Named t → WellFormed (.ident id t)
  | unary {op : Token} {operand : Expr} (id : Nat) :
    UnaryToken op → ¬ IsNegatable op operand → WellFormed operand →
    WellFormed (.unary id op operand)
  | joined {op : Token} {left right : Expr} (id : Nat) :
    BinaryToken op → WellFormed left → WellFormed right → WellFormed (.binary id left op right)
  | field {op name : Token} {left : Expr} (id id' : Nat) :
    op.lexeme = .operator .dot → WellFormed left → Named name →
    WellFormed (.binary id left op (.ident id' name))
  | call {callee : Token} {args : List Expr} (id : Nat) :
    Named callee → (∀ e ∈ args, WellFormed e) → WellFormed (.call id callee args)
  | index {bracket : Token} {target subscript : Expr} (id : Nat) :
    bracket.lexeme = .mark .leftBracket → WellFormed target → WellFormed subscript →
    WellFormed (.index id target bracket subscript)

theorem isAccess_dot {op : Token} (h : op.lexeme = .operator .dot) : isAccess op = true := by
  simp [isAccess, h]

theorem isAccess_binary {op : Token} (h : BinaryToken op) : isAccess op = false := by
  rw [isAccess, beq_eq_false_iff_ne]
  intro hdot
  simp [BinaryToken, hdot, Lexeme.level?, Operator.level?] at h

end Expr

/-! ### From tokens to trees -/

/-- There is a way to write the token. -/
def Token.Spellable (t : Token) : Prop := ∃ word, Spells word t.lexeme

/-- The scanner answers only what can be spelled. -/
theorem scan_spellable (text : String) : ∀ t ∈ (scan text).tokens, t.Spellable := by
  have htiled : ∀ {before cs : List Char} {s : Scanned}, Tiled before cs s →
      ∀ t ∈ s.tokens, t.Spellable := by
    intro before cs s h
    induction h with
    | finished => simp
    | token hgap hheads _ ih => exact List.forall_mem_cons.mpr ⟨⟨_, hheads.spells⟩, ih⟩
    | stopped => simp
  exact htiled (tiled_scan text)

theorem Token.Spellable.named {t : Token} (h : t.Spellable) (ht : NameToken t) : Expr.Named t := by
  obtain ⟨id, hid⟩ := ht
  obtain ⟨word, hword⟩ := h
  refine ⟨id, hid, ?_⟩
  rw [hid] at hword
  cases hword with
  | name hc hcs hk hp =>
    rw [String.toList_ofList]
    exact .name hc hcs hk hp

namespace Grammar

/-- If the tokens can be spelled, then the expression is well formed. -/
def Forms (ts : List Token) (e : Expr) : Prop :=
  (∀ t ∈ ts, t.Spellable) → e.WellFormed

mutual

theorem Primary.forms {ts : List Token} {e : Expr} : Primary ts e → Forms ts e
  | @Primary.literal t id hl => by
    intro hts
    obtain ⟨lexeme, p⟩ := t
    rcases hl with ⟨v, rfl⟩ | ⟨s, rfl⟩
    · obtain ⟨word, hword⟩ := hts _ List.mem_cons_self
      cases hword with
      | decimal _ hn | hexadecimal _ hn | binary _ hn => exact .integer hn
    · exact .text id s p
  | .name id hn => fun hts => .name id ((hts _ List.mem_cons_self).named hn)
  | .call id hn _ hargs _ => fun hts => .call id ((hts _ List.mem_cons_self).named hn)
      (hargs.forms fun t ht => hts t (by simp [ht]))
  | .paren _ he _ => fun hts => he.forms fun t ht => hts t (by simp [ht])

theorem Arguments.forms {ts : List Token} {args : List Expr} : Arguments ts args →
    (∀ t ∈ ts, t.Spellable) → ∀ e ∈ args, e.WellFormed
  | .nil => by simp
  | .last he => fun hts => List.forall_mem_singleton.mpr (he.forms hts)
  | .cons he _ hargs => fun hts => List.forall_mem_cons.mpr
      ⟨he.forms fun t ht => hts t (by simp [ht]), hargs.forms fun t ht => hts t (by simp [ht])⟩

theorem Suffixed.forms {ts : List Token} {e : Expr} : Suffixed ts e → Forms ts e
  | .primary h => h.forms
  | .field id id' h hdot hname => fun hts => .field id id' hdot
      (h.forms fun t ht => hts t (by simp [ht])) ((hts _ (by simp)).named hname)
  | .index id h hl hi _ => fun hts => .index id hl
      (h.forms fun t ht => hts t (by simp [ht])) (hi.forms fun t ht => hts t (by simp [ht]))

theorem Operand.forms {ts : List Token} {e : Expr} : Operand ts e → Forms ts e
  | .suffixed h => h.forms
  | .negated _ h => by
    intro hts
    have hf := h.forms fun t ht => hts t (List.mem_cons_of_mem _ ht)
    cases hf with
    | integer hv => exact .integer (by rwa [Int.natAbs_neg])
  | .applied id hop h hnot => fun hts =>
      .unary id hop hnot (h.forms fun t ht => hts t (List.mem_cons_of_mem _ ht))

theorem Expression.forms {ts : List Token} {e : Expr} : Expression ts e → Forms ts e
  | .operand h => h.forms
  | .joined id h hop h' => fun hts => .joined id hop (h.forms fun t ht => hts t (by simp [ht]))
      (h'.forms fun t ht => hts t (by simp [ht]))

end

/-! ### The expressions of a file -/

/-- The tokens contain the expressions. -/
def Contains (ts : List Token) (es : List Expr) : Prop :=
  ∀ e ∈ es, ∃ us, (∀ t ∈ us, t ∈ ts) ∧ Expression us e

theorem Contains.nil (ts : List Token) : Contains ts [] := fun _ he => nomatch he

theorem Contains.cons {ts us : List Token} {e : Expr} {es : List Expr} (h : Expression us e)
    (hsub : ∀ t ∈ us, t ∈ ts) (hes : Contains ts es) : Contains ts (e :: es) :=
  List.forall_mem_cons.mpr ⟨⟨us, hsub, h⟩, hes⟩

theorem Contains.single {ts us : List Token} {e : Expr} (h : Expression us e)
    (hsub : ∀ t ∈ us, t ∈ ts) : Contains ts [e] :=
  .cons h hsub (.nil ts)

theorem Contains.within {ts us : List Token} {es : List Expr} (h : Contains us es)
    (hsub : ∀ t ∈ us, t ∈ ts) : Contains ts es := by
  intro e he
  obtain ⟨vs, hvs, hexpr⟩ := h e he
  exact ⟨vs, fun t ht => hsub t (hvs t ht), hexpr⟩

theorem Contains.append {ts : List Token} {es es' : List Expr} (h : Contains ts es) (h' : Contains ts es') :
    Contains ts (es ++ es') :=
  List.forall_mem_append.mpr ⟨h, h'⟩

theorem VariableDeclaration.contains {exported : Bool} {ts : List Token} {d : VariableDecl}
    (h : VariableDeclaration exported ts d) : Contains ts d.value.toList := by
  cases h with
  | plain => exact .nil _
  | valued _ _ _ he _ => exact .single he (by simp +contextual)

theorem ConstantDeclaration.contains {exported : Bool} {ts : List Token} {d : ConstantDecl}
    (h : ConstantDeclaration exported ts d) : Contains ts [d.value] := by
  obtain ⟨_, _, _, he, _⟩ := h
  exact .single he (by simp +contextual)

mutual

theorem Statement.contains {ts : List Token} {st : Stmt} : Statement ts st → Contains ts st.exprs
  | .varDecl h => by
    rw [Stmt.exprs]
    exact h.contains
  | .constDecl h => by
    rw [Stmt.exprs]
    exact h.contains
  | .typeDef h => by
    rw [Stmt.exprs]
    exact .nil _
  | .branch h => h.contains
  | .loop _ hc h => by
    rw [Stmt.exprs]
    exact .cons hc (by simp +contextual) (h.contains.within (by simp +contextual))
  | .ret _ _ => by
    rw [Stmt.exprs]
    exact .nil _
  | .retValue _ he _ => by
    rw [Stmt.exprs]
    exact .single he (by simp +contextual)
  | .block h => by
    rw [Stmt.exprs]
    exact h.contains
  | .expr he _ => by
    rw [Stmt.exprs]
    exact .single he (by simp +contextual)
  | .assign ht _ _ he _ => by
    rw [Stmt.exprs]
    exact .cons ht (by simp +contextual) (.single he (by simp +contextual))

theorem Statements.contains {ts : List Token} {ss : List Stmt} :
    Statements ts ss → Contains ts (Stmt.exprsAll ss)
  | .nil => by
    rw [Stmt.exprsAll]
    exact .nil _
  | .cons h hs => by
    rw [Stmt.exprsAll]
    exact (h.contains.within (by simp +contextual)).append (hs.contains.within (by simp +contextual))

theorem Braces.contains {ts : List Token} {b : Block} : Braces ts b → Contains ts b.exprs
  | .mk _ h _ => by
    rw [Block.exprs]
    exact h.contains.within (by simp +contextual)

theorem Conditional.contains {ts : List Token} {b : Stmt.Branch} :
    Conditional ts b → Contains ts b.toStmt.exprs
  | .plain _ hc h => by
    rw [Stmt.Branch.toStmt, Stmt.exprs]
    exact .cons hc (by simp +contextual) (h.contains.within (by simp +contextual))
  | .orElse _ hc h _ h' => by
    rw [Stmt.Branch.toStmt, Stmt.exprs]
    apply Contains.cons hc (by simp +contextual)
    exact (h.contains.within (by simp +contextual)).append (h'.contains.within (by simp +contextual))
  | .orIf _ hc h _ h' => by
    rw [Stmt.Branch.toStmt, Stmt.exprs, Stmt.Branch.toElse, Block.exprs, Stmt.exprsAll,
      Stmt.exprsAll, List.append_nil]
    apply Contains.cons hc (by simp +contextual)
    exact (h.contains.within (by simp +contextual)).append (h'.contains.within (by simp +contextual))

end

theorem Declaration.contains {exported : Bool} {ts : List Token} {i : Item}
    (h : Declaration exported ts i) : Contains ts i.exprs := by
  cases h with
  | typeDef => exact .nil _
  | function h =>
    cases h with
    | plain _ _ _ _ _ hb => exact hb.contains.within (by simp +contextual)
    | returning _ _ _ _ _ _ _ hb => exact hb.contains.within (by simp +contextual)
  | varDecl h => exact h.contains
  | constDecl h => exact h.contains

theorem Module.contains {ts : List Token} {items : List Item} (h : Module ts items) :
    Contains ts (items.flatMap Item.exprs) := by
  induction h with
  | nil => exact .nil _
  | cons hi _ ih =>
    rw [List.flatMap_cons]
    apply Contains.append _ (ih.within (by simp +contextual))
    cases hi with
    | importFile => exact .nil _
    | plain h => exact h.contains.within (by simp +contextual)
    | exported _ h => exact h.contains.within (by simp +contextual)

end Grammar

theorem Expr.WellFormed.of_mem_nodes {e : Expr} (h : e.WellFormed) :
    ∀ e' ∈ e.nodes, e'.WellFormed := by
  -- A node is the expression itself or a node of one of its operands.
  have hself : ∀ {e : Expr}, e.WellFormed → (∀ e' ∈ e.operands, e'.WellFormed) →
      ∀ e' ∈ e.nodes, e'.WellFormed := by
    intro e he hoperands
    rw [Expr.nodes_eq]
    exact List.forall_mem_append.mpr ⟨hoperands, List.forall_mem_singleton.mpr he⟩
  induction h with
  | integer hv => exact hself (.integer hv) (by simp [Expr.operands])
  | text id s p => exact hself (.text id s p) (by simp [Expr.operands])
  | name id ht => exact hself (.name id ht) (by simp [Expr.operands])
  | unary id hop hnot hf ih => exact hself (.unary id hop hnot hf) ih
  | joined id hop hl hr ihl ihr =>
    apply hself (.joined id hop hl hr)
    rw [Expr.operands, Expr.isAccess_binary hop]
    exact List.forall_mem_append.mpr ⟨ihl, ihr⟩
  | field id id' hop hl hname ih =>
    apply hself (.field id id' hop hl hname)
    rw [Expr.operands, Expr.isAccess_dot hop, if_pos rfl, List.append_nil]
    exact ih
  | call id hc hf ih =>
    apply hself (.call id hc hf)
    rw [Expr.operands, Expr.nodesAll_eq]
    intro e' he'
    obtain ⟨a, ha, hmem⟩ := List.mem_flatMap.mp he'
    exact ih a ha e' hmem
  | index id hb ht hs iht ihs =>
    apply hself (.index id hb ht hs)
    exact List.forall_mem_append.mpr ⟨iht, ihs⟩

/-- The expressions that are read from the text of a file. -/
theorem SourceFile.wellFormed_of_parse {file text : String} {source : SourceFile}
    (h : SourceFile.parse file (scan text).tokens = .ok source) :
    ∀ e ∈ source.nodes, e.WellFormed := by
  intro e he
  rw [SourceFile.nodes, Expr.nodesAll_eq] at he
  obtain ⟨whole, hwhole, hnode⟩ := List.mem_flatMap.mp he
  obtain ⟨us, hus, hexpr⟩ := (module_of_parse h).2.contains whole hwhole
  have hformed := hexpr.forms fun t ht => scan_spellable text t (hus t ht)
  exact hformed.of_mem_nodes e hnode

end StoragePlan
