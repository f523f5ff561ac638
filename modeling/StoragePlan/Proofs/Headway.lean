import StoragePlan.Proofs.Ends
import StoragePlan.SourceFile

/-!
A reader that may find nothing has then read nothing, and one that finds something has read at least
one token. `Decides` says so of a reader, whatever the tokens, and `Forward` is what is left to show
once the first token is taken: such a reader must not answer that it found nothing, it has to fail.
There is one lemma for each reader, in the order of the grammar; one that takes the reader of nested
parts as an argument decides if that one does, and the bounds of loops and of depth do not matter.
-/

namespace StoragePlan

open Reader

/-- The tokens between two cursors, which the later one has behind it. -/
def Cursor.ReadsTo (c d : Cursor) : Prop :=
  ∃ read, c.rest = read ++ d.rest ∧ d.index = c.index + read.length

/-- What a reader that may find nothing leaves: the cursor as it was, or a later one. -/
def Cursor.Settles {α : Type} (c : Cursor) : Option α → Cursor → Prop
  | none, d => d = c
  | some _, d => c.ReadsTo d ∧ c.index < d.index

/-- The reader never goes back, also where it fails, and what it answers is as `V` says. -/
def Forward {α : Type} (x : Reader α) (V : α → Prop) : Prop :=
  ∀ c : Cursor, Ends x c (fun a d => V a ∧ c.ReadsTo d) (fun _ d => c.ReadsTo d)

/-- The reader finds nothing and leaves everything as it was, or it finds something and takes at
least one token, or it fails somewhere further on. -/
def Decides {α : Type} (x : Reader (Option α)) : Prop :=
  ∀ c : Cursor, Ends x c c.Settles (fun _ d => c.ReadsTo d)

/-- Something is found. -/
abbrev Finds {α : Type} (x : Reader (Option α)) : Prop := Forward x (·.isSome = true)

/-- Anything may be answered. -/
abbrev Moves {α : Type} (x : Reader α) : Prop := Forward x fun _ => True

namespace Cursor

theorem ReadsTo.refl (c : Cursor) : c.ReadsTo c := ⟨[], rfl, rfl⟩

theorem ReadsTo.trans {c d e : Cursor} (h : c.ReadsTo d) (h' : d.ReadsTo e) : c.ReadsTo e := by
  obtain ⟨read, hread, hindex⟩ := h
  obtain ⟨more, hmore, hindex'⟩ := h'
  refine ⟨read ++ more, by rw [hread, hmore, List.append_assoc], ?_⟩
  rw [hindex', hindex, List.length_append, Nat.add_assoc]

theorem ReadsTo.le {c d : Cursor} (h : c.ReadsTo d) : c.index ≤ d.index := by
  obtain ⟨read, -, hindex⟩ := h
  omega

/-- As many tokens are gone from what is left as the cursor has behind it more. -/
theorem ReadsTo.length {c d : Cursor} (h : c.ReadsTo d) :
    d.index + d.rest.length = c.index + c.rest.length := by
  obtain ⟨read, hread, hindex⟩ := h
  rw [hread, hindex, List.length_append, Nat.add_assoc]

theorem Settles.readsTo {α : Type} {c d : Cursor} {o : Option α} (h : c.Settles o d) :
    c.ReadsTo d := by
  cases o with
  | none =>
    obtain rfl : d = c := h
    exact .refl d
  | some a => exact h.1

end Cursor

namespace Forward

variable {α β : Type} {x : Reader α} {f : α → Reader β} {V : α → Prop} {W : β → Prop}

theorem pure {a : α} (h : V a) : Forward (Pure.pure a) V := fun c => Ends.pure ⟨h, .refl c⟩

theorem throw (e : ParseFault) : Forward (MonadExcept.throw e) V := fun c => Ends.throw (.refl c)

theorem fail (p : Position) (e : ParseError) : Forward (Reader.fail p e) V := throw _

theorem bind (hx : Forward x V) (hf : ∀ a, V a → Forward (f a) W) : Forward (x >>= f) W := by
  intro c
  refine (hx c).seq (fun _ _ h => h) ?_
  rintro a d ⟨ha, hd⟩
  exact (hf a ha d).mono (fun b _ ⟨hb, he⟩ => ⟨hb, hd.trans he⟩) (fun _ _ he => hd.trans he)

theorem get {f : Cursor → Reader β} (hf : ∀ c, Forward (f c) W) :
    Forward (MonadState.get >>= f) W :=
  fun c => Ends.bind (Ends.get (hf c c))

theorem pureBind {a : α} (h : Forward (f a) W) : Forward (Pure.pure a >>= f) W := h

/-- The number of a new node costs no token. -/
theorem newId {f : Nat → Reader β} (hf : ∀ id, Forward (f id) W) : Forward (Reader.newId >>= f) W :=
  bind (V := fun _ => True) (fun _ => ⟨trivial, [], rfl, rfl⟩) fun id _ => hf id

end Forward

namespace Moves

variable {α β : Type} {x : Reader α}

/-- Whatever the first step answers, the second one goes on. -/
theorem bind {f : α → Reader β} {W : β → Prop} (hx : Moves x) (hf : ∀ a, Forward (f a) W) :
    Forward (x >>= f) W :=
  Forward.bind hx fun a _ => hf a

theorem map {g : α → β} (hx : Moves x) : Moves (g <$> x) := fun c =>
  Ends.map ((hx c).mono (fun _ _ h => h) (fun _ _ h => h))

end Moves

namespace Decides

variable {α β : Type} {x : Reader (Option α)} {W : β → Prop}

theorem nothing : Decides (Pure.pure none : Reader (Option α)) := fun _ => Ends.pure rfl

theorem fail (p : Position) (e : ParseError) : Decides (Reader.fail p e : Reader (Option α)) :=
  fun c => Ends.throw (.refl c)

/-- A reader that decides never goes back. -/
theorem moves (h : Decides x) : Moves x := fun c =>
  (h c).mono (fun _ _ hd => ⟨trivial, hd.readsTo⟩) (fun _ _ hd => hd)

theorem get {f : Cursor → Reader (Option α)} (hf : ∀ c, Decides (f c)) :
    Decides (MonadState.get >>= f) :=
  fun c => Ends.bind (Ends.get (hf c c))

/-- Where the first part finds nothing the second is still to decide; else something has to be
found, because a token is gone. -/
theorem optional {f : Option α → Reader (Option β)} (hx : Decides x) (hnone : Decides (f none))
    (hsome : ∀ a, Finds (f (some a))) : Decides (x >>= f) := by
  intro c
  refine (hx c).seq (fun _ _ h => h) ?_
  intro o d hd
  cases o with
  | none =>
    obtain rfl : d = c := hd
    exact hnone d
  | some a =>
    obtain ⟨hread, hlt⟩ := hd
    refine (hsome a d).mono ?_ (fun _ _ he => hread.trans he)
    rintro o e ⟨ho, he⟩
    obtain ⟨b, rfl⟩ := Option.isSome_iff_exists.mp ho
    exact ⟨hread.trans he, Nat.lt_of_lt_of_le hlt he.le⟩

/-- A part that may be missing, where going on is all that is asked. -/
theorem thenMoves {f : Option α → Reader β} (hx : Decides x) (hnone : Forward (f none) W)
    (hsome : ∀ a, Forward (f (some a)) W) : Forward (x >>= f) W :=
  hx.moves.bind fun o => by
    cases o with
    | none => exact hnone
    | some a => exact hsome a

/-- The next token is taken or not. -/
theorem nextIf? (test : Token → Bool) : Decides (Reader.nextIf? test) := by
  intro c
  unfold Ends Reader.nextIf?
  cases hc : c.rest with
  | nil => rfl
  | cons t rest =>
    by_cases ht : test t = true
    · simp only [ht, if_true]
      exact ⟨⟨[t], hc, rfl⟩, Nat.lt_succ_self _⟩
    · simp only [ht]
      rfl

theorem accept? (l : Lexeme) : Decides (Reader.accept? l) := nextIf? _

theorem acceptAny? (set : List Lexeme) : Decides (Reader.acceptAny? set) := nextIf? _

theorem acceptName? : Decides Reader.acceptName? := nextIf? _

/-- What is found is answered as something else. -/
theorem as {g : α → β} (hx : Decides x) : Decides ((·.map g) <$> x) := fun c =>
  Ends.map ((hx c).mono (fun o _ hd => by cases o <;> exact hd) (fun _ _ hd => hd))

theorem firstOf {rs : List (Reader (Option α))} (h : ∀ r ∈ rs, Decides r) :
    Decides (Stmt.firstOf rs) := by
  induction rs with
  | nil => exact nothing
  | cons r rs ih =>
    rw [List.forall_mem_cons] at h
    exact h.1.optional (ih h.2) fun a => .pure rfl

end Decides

/-- A token that has to stand here is taken. -/
theorem moves_require (l : Lexeme) : Moves (Reader.require l) :=
  (Decides.accept? l).thenMoves (.get fun _ => .throw _) fun _ => .pure trivial

theorem moves_nameAfter (after : Token) : Moves (nameAfter after) :=
  Decides.acceptName?.thenMoves (.get fun _ => .fail _ _) fun _ => .pure trivial

/-! ### Expressions -/

namespace Expr

variable {sub : Reader (Option Expr)}

theorem moves_required (hs : Decides sub) (after : Token) : Moves (required sub after) :=
  hs.thenMoves (.get fun _ => .fail _ _) fun _ => .pure trivial

theorem moves_arguments (hs : Decides sub) (n : Nat) : Moves (arguments sub n) := by
  induction n with
  | zero => exact .pure trivial
  | succ n ih =>
    refine hs.thenMoves (.pure trivial) fun e => ?_
    refine (Decides.accept? _).thenMoves (.pure trivial) fun comma => ?_
    exact ih.bind fun es => .pure trivial

theorem decides_callOf (hs : Decides sub) : Decides (callOf sub) := by
  refine Decides.acceptName?.optional .nothing fun callee => ?_
  refine (moves_require _).bind fun l => .get fun c => (moves_arguments hs _).bind fun args => ?_
  exact (moves_require _).bind fun r => .newId fun id => .pure rfl

theorem decides_primary (hs : Decides sub) : Decides (primary sub) := by
  refine (Decides.accept? _).optional (.get fun c => ?_) fun paren => ?_
  · split
    · exact decides_callOf hs
    · refine (Decides.acceptAny? _).optional ?_ fun t => .newId fun id => .pure rfl
      exact Decides.acceptName?.optional .nothing fun t => .newId fun id => .pure rfl
  · exact (moves_required hs paren).bind fun e => (moves_require _).bind fun r => .pure rfl

theorem moves_suffixes (hs : Decides sub) (n : Nat) (e : Expr) : Moves (suffixes sub n e) := by
  induction n generalizing e with
  | zero => exact .pure trivial
  | succ n ih =>
    refine (Decides.accept? _).thenMoves ?_ fun dot => ?_
    · refine (Decides.accept? _).thenMoves (.pure trivial) fun bracket => ?_
      refine (moves_required hs bracket).bind fun i => (moves_require _).bind fun r => ?_
      exact .newId fun id => ih _
    · refine Decides.acceptName?.thenMoves (.fail _ _) fun field => ?_
      exact .newId fun id => .newId fun id' => ih _

theorem decides_suffixed (hs : Decides sub) : Decides (suffixed sub) := by
  refine (decides_primary hs).optional .nothing fun e => .get fun c => ?_
  exact (moves_suffixes hs _ e).bind fun e' => .pure rfl

theorem moves_applyUnary (op : Token) (operand : Expr) : Moves (applyUnary op operand) := by
  unfold applyUnary
  split
  · exact .pure trivial
  · exact .newId fun id => .pure trivial

/-- An operator that is taken has to be followed by an operand. -/
theorem decides_unaryOf (hs : Decides sub) (n : Nat) : Decides (unaryOf sub n) := by
  induction n with
  | zero => exact decides_suffixed hs
  | succ n ih =>
    refine (Decides.acceptAny? _).optional (decides_suffixed hs) fun op => ?_
    refine ih.thenMoves (.fail _ _) fun operand => ?_
    exact (moves_applyUnary op operand).bind fun e => .pure rfl

theorem decides_operandOf (hs : Decides sub) : Decides (operandOf sub) :=
  .get fun _ => decides_unaryOf hs _

theorem moves_climb {operand : Reader (Option Expr)} (ho : Decides operand) (n least : Nat)
    (left : Expr) : Moves (climb operand n least left) := by
  induction n generalizing least left with
  | zero => exact .pure trivial
  | succ n ih =>
    refine (Decides.nextIf? _).thenMoves (.pure trivial) fun op => ?_
    refine ho.thenMoves (.fail _ _) fun first => (ih _ first).bind fun right => ?_
    exact .newId fun id => ih _ _

theorem decides_binaryOf (hs : Decides sub) (least : Nat) : Decides (binaryOf sub least) := by
  refine (decides_operandOf hs).optional .nothing fun first => .get fun c => ?_
  exact (moves_climb (decides_operandOf hs) _ _ first).bind fun e => .pure rfl

theorem decides_nested (depth : Nat) : Decides (nested depth) := by
  induction depth with
  | zero => exact .nothing
  | succ depth ih => exact decides_binaryOf ih 1

theorem decides_read? : Decides read? := .get fun _ => decides_nested _

theorem moves_readAfter (after : Token) : Moves (readAfter after) :=
  moves_required decides_read? after

end Expr

/-! ### Declarations -/

namespace Annotation

theorem moves_dimensions (n : Nat) : Moves (dimensions n) := by
  induction n with
  | zero => exact .pure trivial
  | succ n ih =>
    refine (Decides.accept? _).thenMoves (.pure trivial) fun bracket => ?_
    refine (Decides.accept? _).moves.bind fun o => ?_
    split
    · exact (moves_require _).bind fun r => ih.bind fun ds => .pure trivial
    · exact .fail _ _

theorem decides_read? : Decides read? := by
  refine (Decides.acceptAny? _).optional .nothing fun name => .get fun c => ?_
  exact (moves_dimensions _).bind fun ds => .pure rfl

theorem moves_readAfter (after : Token) : Moves (readAfter after) :=
  decides_read?.thenMoves (.get fun _ => .fail _ _) fun _ => .pure trivial

theorem moves_readAfterColon : Moves readAfterColon :=
  (moves_require _).bind fun colon => moves_readAfter colon

end Annotation

open Annotation (moves_readAfterColon moves_readAfter)

namespace Field

theorem moves_readMany (n : Nat) : Moves (readMany n) := by
  induction n with
  | zero => exact .pure trivial
  | succ n ih =>
    refine Decides.acceptName?.thenMoves (.pure trivial) fun name => ?_
    refine moves_readAfterColon.bind fun a => ?_
    refine (Decides.accept? _).thenMoves (.pure trivial) fun comma => ?_
    exact ih.bind fun fs => .pure trivial

theorem moves_readBetween (opening closing : Mark) : Moves (readBetween opening closing) := by
  refine (moves_require _).bind fun l => .get fun c => (moves_readMany _).bind fun fs => ?_
  exact (moves_require _).bind fun r => .pure trivial

end Field

theorem TypeDef.decides_read? (exported : Bool) : Decides (TypeDef.read? exported) := by
  refine (Decides.accept? _).optional .nothing fun kw => (moves_nameAfter kw).bind fun name => ?_
  exact (Field.moves_readBetween _ _).bind fun fs => .pure rfl

theorem VariableDecl.decides_read? (exported : Bool) : Decides (VariableDecl.read? exported) := by
  refine (Decides.accept? _).optional .nothing fun kw => (moves_nameAfter kw).bind fun name => ?_
  refine moves_readAfterColon.bind fun a => ?_
  refine (Decides.accept? _).thenMoves (.pureBind ?_) fun assign => ?_
  · exact (moves_require _).bind fun r => .pure rfl
  · refine (Expr.moves_readAfter assign).map.bind fun e => ?_
    exact (moves_require _).bind fun r => .pure rfl

theorem ConstantDecl.decides_read? (exported : Bool) : Decides (ConstantDecl.read? exported) := by
  refine (Decides.accept? _).optional .nothing fun kw => (moves_nameAfter kw).bind fun name => ?_
  refine moves_readAfterColon.bind fun a => (moves_require _).bind fun assign => ?_
  exact (Expr.moves_readAfter assign).bind fun e => (moves_require _).bind fun r => .pure rfl

/-! ### Statements -/

section Statements

variable {sub : Reader (Option Stmt)}

theorem Block.moves_statements (hs : Decides sub) (n : Nat) : Moves (Block.statements sub n) := by
  induction n with
  | zero => exact .pure trivial
  | succ n ih => exact hs.thenMoves (.pure trivial) fun s => ih.bind fun ss => .pure trivial

theorem Block.decides_readWith? (hs : Decides sub) : Decides (Block.readWith? sub) := by
  refine (Decides.accept? _).optional .nothing fun l => .get fun c => ?_
  exact (Block.moves_statements hs _).bind fun ss => (moves_require _).bind fun r => .pure rfl

theorem Block.moves_requireWith (hs : Decides sub) : Moves (Block.requireWith sub) :=
  (Block.decides_readWith? hs).thenMoves (.get fun _ => .throw _) fun _ => .pure trivial

namespace Stmt

/-- A branch after `else` may be missing, and then a block has to stand there. -/
theorem decides_branchWith? (hs : Decides sub) (n : Nat) : Decides (branchWith? sub n) := by
  induction n with
  | zero => exact .nothing
  | succ n ih =>
    refine (Decides.accept? _).optional .nothing fun kw => ?_
    refine (Expr.moves_readAfter kw).bind fun e => (Block.moves_requireWith hs).bind fun b => ?_
    refine (Decides.accept? _).thenMoves (.pure rfl) fun other => ?_
    refine ih.thenMoves ?_ fun inner => .pure rfl
    exact (Block.moves_requireWith hs).bind fun b' => .pure rfl

theorem decides_loopWith? (hs : Decides sub) : Decides (loopWith? sub) := by
  refine (Decides.accept? _).optional .nothing fun kw => (Expr.moves_readAfter kw).bind fun e => ?_
  exact (Block.moves_requireWith hs).bind fun b => .pure rfl

theorem decides_ret? : Decides ret? := by
  refine (Decides.accept? _).optional .nothing fun kw => ?_
  exact Expr.decides_read?.moves.bind fun value => (moves_require _).bind fun r => .pure rfl

theorem decides_simple? : Decides simple? := by
  refine Expr.decides_read?.optional .nothing fun e => ?_
  refine (Decides.accept? _).thenMoves (.pureBind ?_) fun op => ?_
  · exact (moves_require _).bind fun r => .pure rfl
  · dsimp only
    split
    · refine (Expr.moves_readAfter op).bind fun v => .pureBind ?_
      exact (moves_require _).bind fun r => .pure rfl
    · exact (Forward.fail (V := fun _ => False) _ _).bind fun _ h => h.elim

theorem decides_readWith? (hs : Decides sub) : Decides (readWith? sub) := by
  refine .get fun c => ?_
  split
  · exact .nothing
  · refine .firstOf ?_
    simp only [List.forall_mem_cons]
    exact ⟨(VariableDecl.decides_read? false).as, (ConstantDecl.decides_read? false).as,
      (TypeDef.decides_read? false).as, (decides_branchWith? hs _).as, decides_loopWith? hs,
      decides_ret?, (Block.decides_readWith? hs).as, decides_simple?, by simp⟩

theorem decides_nested (depth : Nat) : Decides (nested depth) := by
  induction depth with
  | zero => exact .nothing
  | succ depth ih => exact decides_readWith? ih

theorem decides_read? : Decides read? := .get fun _ => decides_nested _

end Stmt

end Statements

/-! ### Files -/

theorem FunctionDef.decides_read? (exported : Bool) : Decides (FunctionDef.read? exported) := by
  have hbody : Moves Block.read := Block.moves_requireWith Stmt.decides_read?
  refine (Decides.accept? _).optional .nothing fun kw => (moves_nameAfter kw).bind fun name => ?_
  refine (Field.moves_readBetween _ _).bind fun params => ?_
  refine (Decides.accept? _).thenMoves (.pureBind ?_) fun arrow => ?_
  · exact hbody.bind fun body => .pure rfl
  · refine (moves_readAfter arrow).map.bind fun a => ?_
    exact hbody.bind fun body => .pure rfl

theorem Import.decides_read? : Decides Import.read? := by
  refine (Decides.accept? _).optional .nothing fun kw => (Decides.accept? _).moves.bind fun o => ?_
  split
  · exact (moves_require _).bind fun r => .pure rfl
  · exact .fail _ _

namespace Item

theorem decides_declaration? (exported : Bool) : Decides (declaration? exported) := by
  refine .firstOf ?_
  simp only [List.forall_mem_cons]
  exact ⟨(TypeDef.decides_read? exported).as, (FunctionDef.decides_read? exported).as,
    (VariableDecl.decides_read? exported).as, (ConstantDecl.decides_read? exported).as, by simp⟩

/-- After `export` a declaration has to follow. -/
theorem decides_read? : Decides Item.read? := by
  refine Import.decides_read?.optional ?_ fun i => .pure rfl
  refine (Decides.accept? _).optional (decides_declaration? false) fun kw => ?_
  exact (decides_declaration? true).thenMoves (.get fun _ => .fail _ _) fun item => .pure rfl

end Item

/-! ### The cursor in a file -/

/-- The cursor `d` is one over these tokens and not behind `c`; it has not gone past their end. -/
structure Cursor.Ahead (tokens : List Token) (c d : Cursor) : Prop where
  rest : d.rest = tokens.drop d.index
  le : c.index ≤ d.index
  inside : d.index ≤ max c.index tokens.length

theorem Cursor.ReadsTo.ahead {tokens : List Token} {c d : Cursor} (h : c.ReadsTo d)
    (hc : c.rest = tokens.drop c.index) : c.Ahead tokens d := by
  obtain ⟨read, hread, hindex⟩ := h
  refine ⟨?_, by omega, ?_⟩
  · calc d.rest
      _ = c.rest.drop read.length := by rw [hread, List.drop_left]
      _ = tokens.drop d.index := by rw [hc, List.drop_drop, hindex]
  · have hlength : read.length ≤ tokens.length - c.index := by
      rw [← List.length_drop, ← hc, hread, List.length_append]
      exact Nat.le_add_right _ _
    omega

/-- On the tokens of any file, and from any place in them: where the reader finds nothing the cursor
is what it was, with the number of the next node; where it finds something at least one token is
behind the cursor that was not; and it never goes back or past the end. -/
def Headway {α : Type} (x : Reader (Option α)) : Prop :=
  ∀ (tokens : List Token) (c : Cursor), c.rest = tokens.drop c.index →
    match x c with
    | .ok none d => d = c
    | .ok (some _) d => c.Ahead tokens d ∧ c.index < d.index
    | .error _ d => c.Ahead tokens d

theorem Decides.headway {α : Type} {x : Reader (Option α)} (h : Decides x) : Headway x := by
  intro tokens c hc
  split
  · next d hx => exact (h c).ok hx
  · next a d hx =>
    obtain ⟨hread, hlt⟩ := (h c).ok hx
    exact ⟨hread.ahead hc, hlt⟩
  · next e d hx => exact ((h c).error hx).ahead hc

end StoragePlan
