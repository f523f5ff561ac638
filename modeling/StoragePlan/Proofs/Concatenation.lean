import StoragePlan.Proofs.Recognition
import StoragePlan.Proofs.Seams

/-!
Files can be read piece by piece. A list of tokens that is read as a file may be followed by any
tokens: the first items are read as before, and what follows them is read as it would be by itself,
with the same items or the same error. Only the numbers of the nodes go on from where the first list
left off.
-/

namespace StoragePlan

open Reader Grammar

variable {more : List Token} {k b : Nat}

/-! ### Declarations -/

namespace Annotation

theorem follows_dimensions {n n' : Nat} (hn : b ≤ n) (hn' : n ≤ n') :
    Follows more k b (dimensions n) (dimensions n') id := by
  refine Follows.rounds (L := dimensions) (M := dimensions) ?_ ?_ ?_ (Nat.le_refl b) hn hn'
  · intro b' _
    exact .pure rfl
  · exact fun _ _ _ => rfl
  · intro b' _ n n' ih
    refine .nextIf (.pure rfl) fun bracket => .nextIf (.fail _ _) fun t => ?_
    obtain ⟨lexeme, position⟩ := t
    cases lexeme with
    | integer d =>
      exact .require fun close => (ih.mono (Nat.sub_le _ _)).bind fun ds => .pure rfl
    | _ => exact .fail _ _

theorem follows_read? : Follows more k b read? read? id := by
  refine .nextIf (.pure rfl) fun name => ?_
  exact .boundedBind (L := dimensions) (M := dimensions) (fun _ _ _ _ => follows_dimensions)
    fun ds => .pure rfl

theorem follows_readAfter (after : Token) :
    Follows more k b (readAfter after) (readAfter after) id := by
  refine follows_read?.bind fun o => ?_
  cases o with
  | some a => exact .pure rfl
  | none => exact .failHere fun _ => _

theorem follows_readAfterColon : Follows more k b readAfterColon readAfterColon id :=
  .require fun colon => follows_readAfter colon

end Annotation

open Annotation (follows_readAfterColon follows_readAfter)

theorem follows_nameAfter (after : Token) :
    Follows more k b (nameAfter after) (nameAfter after) id := by
  exact .nextIf (.failHere fun _ => _) fun name => .pure rfl

namespace Field

theorem follows_readMany {n n' : Nat} (hn : b ≤ n) (hn' : n ≤ n') :
    Follows more k b (readMany n) (readMany n') id := by
  refine Follows.rounds (L := readMany) (M := readMany) ?_ ?_ ?_ (Nat.le_refl b) hn hn'
  · intro b' _
    exact .pure rfl
  · exact fun _ _ _ => rfl
  · intro b' _ n n' ih
    refine .nextIf (.pure rfl) fun name => follows_readAfterColon.bind fun a => ?_
    refine .nextIf (.pure rfl) fun comma => ?_
    exact (ih.mono (Nat.sub_le _ _)).bind fun fs => .pure rfl

theorem follows_readBetween (opening closing : Mark) :
    Follows more k b (readBetween opening closing) (readBetween opening closing) id := by
  refine .require fun l => ?_
  refine .boundedBind (L := readMany) (M := readMany) (fun _ _ _ _ => follows_readMany) fun fs => ?_
  exact .require fun r => .pure rfl

end Field

theorem TypeDef.follows_read? (exported : Bool) :
    Follows more k b (TypeDef.read? exported) (TypeDef.read? exported) id := by
  refine .nextIf (.pure rfl) fun kw => (follows_nameAfter kw).bind fun name => ?_
  exact (Field.follows_readBetween _ _).bind fun fs => .pure rfl

theorem VariableDecl.follows_read? (exported : Bool) :
    Follows more k b (VariableDecl.read? exported) (VariableDecl.read? exported)
      (Option.map (VariableDecl.renumber (· - k))) := by
  refine .nextIf (.pure rfl) fun kw => (follows_nameAfter kw).bind fun name => ?_
  refine follows_readAfterColon.bind fun a => ?_
  refine .nextIf (.pureBind (.require fun semicolon => .pure rfl)) fun assign => ?_
  exact (Expr.follows_readAfter assign).someBind fun e => .require fun semicolon => .pure rfl

theorem ConstantDecl.follows_read? (exported : Bool) :
    Follows more k b (ConstantDecl.read? exported) (ConstantDecl.read? exported)
      (Option.map (ConstantDecl.renumber (· - k))) := by
  refine .nextIf (.pure rfl) fun kw => (follows_nameAfter kw).bind fun name => ?_
  refine follows_readAfterColon.bind fun a => .require fun assign => ?_
  exact (Expr.follows_readAfter assign).bind fun e => .require fun semicolon => .pure rfl

/-! ### Statements -/

namespace Stmt

/-- The statement with numbers that are `k` less. -/
abbrev lower (k : Nat) : Stmt → Stmt := renumber (· - k)

theorem follows_firstOf_nil {α : Type} {l : α → α} :
    Follows more k b (firstOf []) (firstOf []) (Option.map l) := .pure rfl

theorem follows_firstOf_cons {α : Type} {l : α → α} {r r' : Reader (Option α)}
    {rs rs' : List (Reader (Option α))} (h : Follows more k b r r' (Option.map l))
    (hrest : Follows more k b (firstOf rs) (firstOf rs') (Option.map l)) :
    Follows more k b (firstOf (r :: rs)) (firstOf (r' :: rs')) (Option.map l) :=
  h.optional hrest fun _ => .pure rfl

/-- What is read as one of several kinds. -/
theorem follows_as {α β : Type} {l : α → α} {m : β → β} {g : α → β} {r r' : Reader (Option α)}
    (h : Follows more k b r r' (Option.map l)) (hg : ∀ a, g (l a) = m (g a)) :
    Follows more k b ((·.map g) <$> r) ((·.map g) <$> r') (Option.map m) := by
  refine h.map fun o => ?_
  cases o with
  | none => rfl
  | some a => exact congrArg some (hg a)

/-- The same for what has no numbers. -/
theorem follows_as_id {α β : Type} {m : β → β} {g : α → β} {r r' : Reader (Option α)}
    (h : Follows more k b r r' id) (hg : ∀ a, g a = m (g a)) :
    Follows more k b ((·.map g) <$> r) ((·.map g) <$> r') (Option.map m) := by
  have hmap : Follows more k b r r' (Option.map id) := by rwa [Option.map_id]
  exact follows_as hmap hg

end Stmt

section Statements

variable {sub sub' : Reader (Option Stmt)}

theorem Block.follows_statements (hs : Follows more k b sub sub' (Option.map (Stmt.lower k)))
    (hd : Declines sub []) (hy : Derives sub' (Optional Statement)) {b' n n' : Nat} (hb : b' ≤ b)
    (hn : b' ≤ n) (hn' : n ≤ n') :
    Follows more k b' (Block.statements sub n) (Block.statements sub' n')
      (Stmt.renumberAll (· - k)) := by
  refine Follows.rounds (L := Block.statements sub) (M := Block.statements sub') ?_ ?_ ?_ hb hn hn'
  · intro b' _
    exact .pure rfl
  · intro index final id
    rw [Block.statements, Block.statements, bind_of_ok (hd _ rfl)]
  · intro b' hb n n' ih
    refine (hs.mono hb).taking hy (fun ts st h => ?_) (.pure rfl) fun st => ?_
    · obtain ⟨t, us, rfl, -⟩ := h.head
      simp
    · exact ih.bind fun ss => .pure rfl

theorem Block.follows_readWith? (hs : Follows more k (b - 1) sub sub' (Option.map (Stmt.lower k)))
    (hd : Declines sub []) (hy : Derives sub' (Optional Statement)) :
    Follows more k b (Block.readWith? sub) (Block.readWith? sub')
      (Option.map (Block.renumber (· - k))) := by
  refine .nextIf (.pure rfl) fun opening => ?_
  refine .boundedBind (L := Block.statements sub) (M := Block.statements sub')
    (fun _ _ _ => Block.follows_statements hs hd hy) fun ss => ?_
  exact .require fun closing => .pure rfl

theorem Block.follows_requireWith (hs : Follows more k (b - 1) sub sub' (Option.map (Stmt.lower k)))
    (hd : Declines sub []) (hy : Derives sub' (Optional Statement)) :
    Follows more k b (Block.requireWith sub) (Block.requireWith sub') (Block.renumber (· - k)) := by
  exact (Block.follows_readWith? hs hd hy).optional (.failHere (.expectedButFound _)) fun b =>
    .pure rfl

namespace Stmt

theorem follows_branchWith? (hs : Follows more k (b - 1) sub sub' (Option.map (lower k)))
    (hd : Declines sub []) (hy : Derives sub' (Optional Statement)) {b' n n' : Nat} (hb : b' ≤ b)
    (hn : b' ≤ n) (hn' : n ≤ n') :
    Follows more k b' (branchWith? sub n) (branchWith? sub' n')
      (Option.map (Branch.renumber (· - k))) := by
  have hblock : ∀ b', b' ≤ b →
      Follows more k b' (Block.requireWith sub) (Block.requireWith sub') (Block.renumber (· - k)) :=
    fun b' hb => (Block.follows_requireWith hs hd hy).mono hb
  refine Follows.rounds (L := branchWith? sub) (M := branchWith? sub') ?_ ?_ ?_ hb hn hn'
  · intro b' _
    exact .pure rfl
  · exact fun _ _ _ => rfl
  · intro b' hb n n' ih
    refine .nextIf (.pure rfl) fun token => (Expr.follows_readAfter token).bind fun c => ?_
    refine (hblock _ (by omega)).bind fun thenBlock => .nextIf (.pure rfl) fun other => ?_
    refine (ih.mono (Nat.sub_le _ _)).optional ?_ fun inner => .pure ?_
    · exact (hblock _ (by omega)).bind fun elseBlock => .pure rfl
    · rw [Branch.toElse_renumber]
      rfl

theorem follows_loopWith? (hs : Follows more k (b - 1) sub sub' (Option.map (lower k)))
    (hd : Declines sub []) (hy : Derives sub' (Optional Statement)) :
    Follows more k b (loopWith? sub) (loopWith? sub') (Option.map (lower k)) := by
  refine .nextIf (.pure rfl) fun token => (Expr.follows_readAfter token).bind fun c => ?_
  refine (Block.follows_requireWith (hs.mono (Nat.sub_le _ _)) hd hy).bind fun body => .pure ?_
  simp only [Option.map_some, renumber]

theorem follows_ret? : Follows more k b ret? ret? (Option.map (lower k)) := by
  refine .nextIf (.pure rfl) fun token => Expr.follows_read?.bind fun value => ?_
  refine .require fun semicolon => .pure ?_
  simp only [Option.map_some, renumber]

theorem follows_simple? : Follows more k b simple? simple? (Option.map (lower k)) := by
  refine Expr.follows_read?.optional (.pure rfl) fun e => .nextIf ?_ fun op => ?_
  · refine .pureBind (.require fun semicolon => .pure ?_)
    simp only [Option.map_some, renumber]
  · dsimp only
    rw [Expr.isAssignable_renumber]
    split
    · refine (Expr.follows_readAfter op).bind fun value => ?_
      refine .pureBind (.require fun semicolon => .pure ?_)
      simp only [Option.map_some, renumber]
    · exact (Follows.fail (l := lower k) _ _).bind fun st => .require fun semicolon => .pure rfl

/-- Where one run sees the end of a block or of the tokens and the other does not, the shorter list
has ended. -/
theorem nil_of_sees {c c' : Cursor} (he : c.Extends more k c')
    (hp : (c.rest.isEmpty || c.sees (.mark .rightBrace)) ≠
      (c'.rest.isEmpty || c'.sees (.mark .rightBrace))) : more ≠ [] ∧ c.rest = [] := by
  have hrest := he.rest
  constructor
  · rintro rfl
    rw [List.append_nil] at hrest
    exact hp (by simp [Cursor.sees, Cursor.peek?, hrest])
  · cases hc : c.rest with
    | nil => rfl
    | cons t ts =>
      rw [hc] at hrest
      exact absurd (by simp [Cursor.sees, Cursor.peek?, hrest, hc]) hp

/-- The kinds of statements, in the order in which they are tried. -/
def kinds (sub : Reader (Option Stmt)) (n : Nat) : List (Reader (Option Stmt)) :=
  [(·.map .varDecl) <$> VariableDecl.read? false,
   (·.map .constDecl) <$> ConstantDecl.read? false,
   (·.map .typeDef) <$> TypeDef.read? false,
   (·.map Branch.toStmt) <$> branchWith? sub n,
   loopWith? sub,
   ret?,
   (·.map .block) <$> Block.readWith? sub,
   simple?]

theorem readWith?_eq (sub : Reader (Option Stmt)) : readWith? sub = (do
    let c ← get
    if c.rest.isEmpty || c.sees (.mark .rightBrace) then return none
    else firstOf (kinds sub c.rest.length)) := rfl

theorem follows_kinds (hs : Follows more k (b - 1) sub sub' (Option.map (lower k)))
    (hd : Declines sub []) (hy : Derives sub' (Optional Statement)) {n n' : Nat} (hn : b ≤ n)
    (hn' : n ≤ n') :
    Follows more k b (firstOf (kinds sub n)) (firstOf (kinds sub' n')) (Option.map (lower k)) := by
  refine follows_firstOf_cons (follows_as (VariableDecl.follows_read? false) ?_) ?_
  · exact fun d => by simp only [renumber]
  refine follows_firstOf_cons (follows_as (ConstantDecl.follows_read? false) ?_) ?_
  · exact fun d => by simp only [renumber]
  refine follows_firstOf_cons (follows_as_id (TypeDef.follows_read? false) ?_) ?_
  · exact fun d => by simp only [renumber]
  refine follows_firstOf_cons
    (follows_as (follows_branchWith? hs hd hy (Nat.le_refl b) hn hn') ?_) ?_
  · exact Branch.toStmt_renumber _
  refine follows_firstOf_cons (follows_loopWith? hs hd hy) ?_
  refine follows_firstOf_cons follows_ret? ?_
  refine follows_firstOf_cons (follows_as (Block.follows_readWith? hs hd hy) ?_) ?_
  · exact fun b => by simp only [renumber]
  exact follows_firstOf_cons follows_simple? follows_firstOf_nil

theorem follows_readWith? (hs : Follows more k (b - 1) sub sub' (Option.map (lower k)))
    (hd : Declines sub []) (hy : Derives sub' (Optional Statement)) :
    Follows more k b (readWith? sub) (readWith? sub') (Option.map (lower k)) := by
  rw [readWith?_eq, readWith?_eq]
  refine .lookBounded (X := fun n => firstOf (kinds sub n)) (Y := fun n => firstOf (kinds sub' n))
    (.pure rfl) ?_ ?_
  · intro b' n n' hb hn hn'
    exact follows_kinds (hs.mono (Nat.sub_le_sub_right hb 1)) hd hy hn hn'
  · intro c c' he hp
    obtain ⟨hmore, hnil⟩ := nil_of_sees he hp
    obtain ⟨index, rest, final, nextId⟩ := c
    cases hnil
    exact ⟨hmore, .inl rfl⟩

theorem declines_nested (depth : Nat) : Declines (nested depth) [] := by
  intro c hc
  obtain ⟨index, rest, final, nextId⟩ := c
  cases hc
  cases depth <;> rfl

theorem follows_nested {n n' : Nat} (hn : b ≤ n) (hn' : n ≤ n') :
    Follows more k b (nested n) (nested n') (Option.map (lower k)) := by
  refine Follows.rounds (L := nested) (M := nested) ?_ ?_ ?_ (Nat.le_refl b) hn hn'
  · intro b' _
    exact .pure rfl
  · exact fun _ _ _ => rfl
  · intro b' _ n n' ih
    exact follows_readWith? ih (declines_nested n) (derives_nested n')

theorem follows_read? : Follows more k b read? read? (Option.map (lower k)) :=
  .bounded (X := nested) (Y := nested) fun _ _ _ _ => follows_nested

end Stmt

end Statements

theorem Block.follows_read : Follows more k b Block.read Block.read (Block.renumber (· - k)) :=
  Block.follows_requireWith Stmt.follows_read? (.get fun _ _ => Stmt.declines_nested _)
    (.get fun _ => Stmt.derives_nested _)

/-! ### Items -/

theorem FunctionDef.follows_read? (exported : Bool) :
    Follows more k b (FunctionDef.read? exported) (FunctionDef.read? exported)
      (Option.map (FunctionDef.renumber (· - k))) := by
  refine .nextIf (.pure rfl) fun kw => (follows_nameAfter kw).bind fun name => ?_
  refine (Field.follows_readBetween _ _).bind fun params => .nextIf (.pureBind ?_) fun arrow => ?_
  · exact Block.follows_read.bind fun body => .pure rfl
  · refine (follows_readAfter arrow).someBind fun a => ?_
    exact Block.follows_read.bind fun body => .pure rfl

theorem Import.follows_read? : Follows more k b Import.read? Import.read? id := by
  refine .nextIf (.pure rfl) fun kw => .nextIf (.fail _ _) fun path => ?_
  obtain ⟨lexeme, position⟩ := path
  cases lexeme with
  | text file => exact .require fun semicolon => .pure rfl
  | _ => exact .fail _ _

namespace Item

/-- The item with numbers that are `k` less. -/
abbrev lower (k : Nat) : Item → Item := renumber (· - k)

theorem follows_declaration? (exported : Bool) :
    Follows more k b (declaration? exported) (declaration? exported) (Option.map (lower k)) := by
  refine Stmt.follows_firstOf_cons (Stmt.follows_as_id (TypeDef.follows_read? exported) ?_) ?_
  · exact fun d => rfl
  refine Stmt.follows_firstOf_cons (Stmt.follows_as (FunctionDef.follows_read? exported) ?_) ?_
  · exact fun d => rfl
  refine Stmt.follows_firstOf_cons (Stmt.follows_as (VariableDecl.follows_read? exported) ?_) ?_
  · exact fun d => rfl
  refine Stmt.follows_firstOf_cons (Stmt.follows_as (ConstantDecl.follows_read? exported) ?_) ?_
  · exact fun d => rfl
  exact Stmt.follows_firstOf_nil

theorem follows_read? : Follows more k b Item.read? Item.read? (Option.map (lower k)) := by
  refine Import.follows_read?.bind fun o => ?_
  cases o with
  | some i => exact .pure rfl
  | none =>
    refine .nextIf (follows_declaration? false) fun token => ?_
    exact (follows_declaration? true).optional (.failHere .exportNotAllowed) fun item => .pure rfl

theorem follows_readAll {n n' : Nat} (hn : b ≤ n) (hn' : n ≤ n') :
    Follows [] k b (readAll n) (readAll n') (List.map (lower k)) := by
  refine Follows.rounds (L := readAll) (M := readAll) ?_ ?_ ?_ (Nat.le_refl b) hn hn'
  · intro b' _
    exact .pure rfl
  · exact fun _ _ _ => rfl
  · intro b' _ n n' ih
    refine .look (p := fun c => c.rest.isEmpty) (.pure rfl) ?_ fun c c' he hp => ?_
    · refine follows_read?.taking derives_read? (fun ts item => TopLevel.ne_nil) ?_ fun item => ?_
      · exact .failHere .expectedDeclaration
      · exact ih.bind fun items => .pure rfl
    · rw [he.rest, List.append_nil] at hp
      exact absurd rfl hp

/-! ### One file after another -/

theorem lower_zero (i : Item) : i.lower 0 = i :=
  i.renumber_of_fixed fun n _ => Nat.sub_zero n

/-- An item is read as before where more tokens follow. -/
theorem read?_of_extends {c c' c₁ : Cursor} {item : Item} (he : c.Extends more 0 c')
    (h : Item.read? c = .ok (some item) c₁) :
    ∃ c₁', Item.read? c' = .ok (some item) c₁' ∧ c₁.Extends more 0 c₁' := by
  obtain ⟨ts, hts, hitem⟩ := (derives_read? c).ok h
  have haccepts : Accepts Item.read? ts (c₁.rest ++ more) fun o => o.isSome = true :=
    accepts_read? hitem
  have hc' : c'.rest = ts ++ (c₁.rest ++ more) := by rw [he.rest, hts, List.append_assoc]
  obtain ⟨o, c₁', hrun, hrest, -⟩ := haccepts.run hc'
  have hlong : more.length ≤ c₁'.rest.length := by
    rw [hrest, List.length_append]
    exact Nat.le_add_left _ _
  obtain ⟨d, hshort, hed⟩ := (follows_read?.run c c' he (Nat.le_refl _)).ok hrun hlong
  rw [h] at hshort
  cases o with
  | none => cases hshort
  | some item' =>
    injection hshort with hitem' hd
    rw [Option.map_some, lower_zero] at hitem'
    cases hitem'
    cases hd
    exact ⟨c₁', hrun, hed⟩

theorem readAll_of_empty {n : Nat} {c : Cursor} (hc : c.rest = []) : readAll n c = .ok [] c := by
  obtain ⟨index, rest, final, nextId⟩ := c
  cases hc
  cases n <;> rfl

/-- Before a token, one item is read and then the others. -/
theorem readAll_eq_ok {n : Nat} {c d : Cursor} {items : List Item} (hc : c.rest ≠ [])
    (h : readAll (n + 1) c = .ok items d) :
    ∃ item later c₁, Item.read? c = .ok (some item) c₁ ∧ readAll n c₁ = .ok later d ∧
      items = item :: later := by
  have hempty : ¬ c.rest.isEmpty = true := by rwa [List.isEmpty_iff]
  rw [readAll, bind_get, if_neg hempty] at h
  obtain ⟨o, c₁, hitem, hrest⟩ := bind_eq_ok h
  cases o with
  | none => cases hrest
  | some item =>
    obtain ⟨later, d₁, hlater, hpure⟩ := bind_eq_ok hrest
    cases hpure
    exact ⟨item, later, c₁, hitem, hlater, rfl⟩

theorem readAll_of_read? {n : Nat} {c c₁ : Cursor} {item : Item} (hc : c.rest ≠ [])
    (h : Item.read? c = .ok (some item) c₁) :
    readAll (n + 1) c = ((item :: ·) <$> readAll n) c₁ := by
  have hempty : ¬ c.rest.isEmpty = true := by rwa [List.isEmpty_iff]
  rw [readAll, bind_get, if_neg hempty, bind_of_ok h, map_eq_pure_bind]

/-- Where the items of a file are all read, they are read also before more tokens, and then what
comes of the others. -/
theorem readAll_of_extends {n m : Nat} {c c' d : Cursor} {items : List Item}
    (h : readAll n c = .ok items d) (hn : c.rest.length ≤ n) (he : c.Extends more 0 c')
    (hm : c'.rest.length ≤ m) :
    ∃ m' d', more.length ≤ m' ∧ d'.rest = more ∧ d'.nextId = d.nextId ∧ d'.final = c'.final ∧
      readAll m c' = ((items ++ ·) <$> readAll m') d' := by
  -- Each item takes a token, so the bound of the longer run stays above what is left there.
  induction n generalizing c c' m items with
  | zero =>
    have hc : c.rest = [] := List.length_eq_zero_iff.mp (Nat.le_zero.mp hn)
    exact ends hc h he hm
  | succ n ih =>
    by_cases hc : c.rest = []
    · exact ends hc h he hm
    · obtain ⟨item, later, c₁, hitem, hlater, rfl⟩ := readAll_eq_ok hc h
      obtain ⟨c₁', hitem', he₁⟩ := read?_of_extends he hitem
      obtain ⟨ts, hts, htop⟩ := (derives_read? c).ok hitem
      have hpos : 0 < ts.length := List.length_pos_iff.mpr (TopLevel.ne_nil htop)
      have hc' : c'.rest = ts ++ c₁'.rest := by
        rw [he.rest, hts, List.append_assoc, he₁.rest]
      rw [hts, List.length_append] at hn
      rw [hc', List.length_append] at hm
      obtain _ | m := m
      · omega
      obtain ⟨m', d', hm', hrest, hnext, hfinal, hrun⟩ :=
        ih (m := m) hlater (by omega) he₁ (by omega)
      have hread : Follows more 0 0 Item.read? Item.read? (Option.map (lower 0)) := follows_read?
      have hforward : c'.Onward c₁' := (hread.forward c').ok hitem'
      refine ⟨m', d', hm', hrest, hnext, hfinal.trans hforward.final, ?_⟩
      have hne : c'.rest ≠ [] := by
        rw [hc']
        exact List.append_ne_nil_of_left_ne_nil (TopLevel.ne_nil htop) _
      calc readAll (m + 1) c'
          = ((item :: ·) <$> readAll m) c₁' := readAll_of_read? hne hitem'
        _ = ((item :: ·) <$> (later ++ ·) <$> readAll m') d' := map_run_congr hrun
        _ = ((item :: later ++ ·) <$> readAll m') d' := by rw [Functor.map_map]; rfl
where
  ends {n m : Nat} {c c' : Cursor} {items : List Item} (hc : c.rest = [])
      (h : readAll n c = .ok items d) (he : c.Extends more 0 c') (hm : c'.rest.length ≤ m) :
      ∃ m' d', more.length ≤ m' ∧ d'.rest = more ∧ d'.nextId = d.nextId ∧ d'.final = c'.final ∧
        readAll m c' = ((items ++ ·) <$> readAll m') d' := by
    rw [readAll_of_empty hc] at h
    cases h
    have hrest : c'.rest = more := by rw [he.rest, hc, List.nil_append]
    exact ⟨m, c', by rwa [← hrest], hrest, he.nextId, rfl, congrFun (id_map _).symm c'⟩

/-- Behind the items of one file, the tokens of another are read as on their own, with numbers that
go on from those of the first. -/
theorem readAll_append {t₁ t₂ : List Token} {items : List Item} {d : Cursor} (ht₂ : t₂ ≠ [])
    (h : readAll t₁.length (.ofTokens t₁) = .ok items d) :
    ∃ m d', t₂.length ≤ m ∧ (Cursor.ofTokens t₂).Extends [] d.nextId d' ∧
      readAll (t₁ ++ t₂).length (.ofTokens (t₁ ++ t₂)) = ((items ++ ·) <$> readAll m) d' := by
  have he : (Cursor.ofTokens t₁).Extends t₂ 0 (.ofTokens (t₁ ++ t₂)) :=
    ⟨rfl, rfl, fun hnil => absurd hnil ht₂⟩
  obtain ⟨m, d', hm, hrest, hnext, hfinal, hrun⟩ :=
    readAll_of_extends h (Nat.le_refl _) he (Nat.le_refl _)
  refine ⟨m, d', hm, ⟨?_, ?_, fun _ => ?_⟩, hrun⟩
  · rw [hrest, List.append_nil]
    rfl
  · rw [hnext]
    exact (Nat.zero_add _).symm
  · have hlast : (t₁ ++ t₂).getLast? = t₂.getLast? := by
      rw [List.getLast?_append, Option.or_of_isSome (List.getLast?_isSome.mpr ht₂)]
    rw [hfinal, Cursor.ofTokens, Cursor.ofTokens, hlast]

/-- Numbers are never handed out again. -/
theorem le_of_readAll {m k : Nat} {d d' : Cursor} {items : List Item} (hd : d.nextId = k)
    (h : readAll m d = .ok items d') :
    ∀ n ∈ Expr.numbersAll (items.flatMap Item.exprs), k ≤ n := by
  intro n hn
  obtain ⟨-, hspan⟩ := (numbered_readAll m k d hd).ok h
  rw [numbersOf] at hspan
  rw [hspan, List.mem_range'_1] at hn
  exact hn.1

/-- Numbers that are all at least `k` can be taken down by `k` and up again. -/
theorem raise_lower {k : Nat} {items : List Item}
    (h : ∀ n ∈ Expr.numbersAll (items.flatMap Item.exprs), k ≤ n) :
    (items.map (lower k)).map (renumber (· + k)) = items := by
  induction items with
  | nil => rfl
  | cons item items ih =>
    rw [List.flatMap_cons, Expr.numbersAll_append, List.forall_mem_append] at h
    have hitem : (item.lower k).renumber (· + k) = item := by
      rw [renumber_renumber]
      exact item.renumber_of_fixed fun n hn => Nat.sub_add_cancel (h.1 n hn)
    rw [List.map_cons, List.map_cons, hitem, ih h.2]

end Item

namespace SourceFile

/-- How many numbers are handed out while the tokens of a file are read. -/
def handedOut (tokens : List Token) : Nat :=
  match Item.readAll tokens.length (.ofTokens tokens) with
  | .ok _ c => c.nextId
  | .error _ c => c.nextId

theorem parse_of_ok {file : String} {tokens : List Token} {items : List Item} {c : Cursor}
    (h : Item.readAll tokens.length (.ofTokens tokens) = .ok items c) :
    parse file tokens = .ok ⟨file, items⟩ := by
  rw [parse, h]

theorem parse_of_error {file : String} {tokens : List Token} {f : ParseFault} {c : Cursor}
    (h : Item.readAll tokens.length (.ofTokens tokens) = .error f c) :
    parse file tokens = .error f := by
  rw [parse, h]

theorem parse_eq_ok {file : String} {tokens : List Token} {source : SourceFile}
    (h : parse file tokens = .ok source) :
    ∃ c, Item.readAll tokens.length (.ofTokens tokens) = .ok source.items c ∧
      c.nextId = handedOut tokens ∧ source.file = file := by
  unfold parse at h
  unfold handedOut
  split at h
  · next items c hr =>
    cases h
    rw [hr]
    exact ⟨c, rfl, rfl, rfl⟩
  · cases h

/-- Every number that is handed out is the number of one node. -/
theorem handedOut_of_parse {file : String} {tokens : List Token} {source : SourceFile}
    (h : parse file tokens = .ok source) : handedOut tokens = source.numbers.length := by
  obtain ⟨c, hr, hc, -⟩ := parse_eq_ok h
  obtain ⟨-, hspan⟩ := (Item.numbered_readAll _ 0 (.ofTokens tokens) rfl).ok hr
  have hnumbers : source.numbers = List.range' 0 (c.nextId - 0) := hspan
  rw [hnumbers, List.length_range', ← hc, Nat.sub_zero]

/-- Two lists of tokens that are read one after the other. Once the first is a file of its own, the
second is read behind it as it is read alone: its items follow, with numbers that go on from those
of the first, or it fails in the same way at the same place. -/
theorem parse_append {file : String} {t₁ t₂ : List Token} {first : SourceFile}
    (h : parse file t₁ = .ok first) :
    handedOut t₁ = first.numbers.length ∧
      (∀ second, parse file t₂ = .ok second →
        parse file (t₁ ++ t₂) =
          .ok ⟨file, first.items ++ second.items.map (Item.renumber (· + handedOut t₁))⟩) ∧
      ∀ e, parse file t₂ = .error e → parse file (t₁ ++ t₂) = .error e := by
  refine ⟨handedOut_of_parse h, ?_⟩
  obtain ⟨c, hfirst, hc, rfl⟩ := parse_eq_ok h
  by_cases ht₂ : t₂ = []
  · subst ht₂
    rw [List.append_nil, h]
    refine ⟨fun second hs => ?_, fun e hs => ?_⟩
    · cases hs
      rw [List.map_nil, List.append_nil]
    · cases hs
  · obtain ⟨m, d, hm, he, happend⟩ := Item.readAll_append ht₂ hfirst
    rw [hc] at he
    have hnext : d.nextId = handedOut t₁ := he.nextId.trans (Nat.zero_add _)
    have hrun := (Item.follows_readAll (Nat.le_refl _) hm).run _ _ he (Nat.le_refl _)
    cases hr : Item.readAll m d with
    | ok rest d' =>
      obtain ⟨c', hsecond, -⟩ := hrun.ok hr (Nat.zero_le _)
      have hwhole : parse first.file (t₁ ++ t₂) = .ok ⟨first.file, first.items ++ rest⟩ :=
        parse_of_ok (happend.trans (map_of_ok hr))
      have hraise := Item.raise_lower (Item.le_of_readAll hnext hr)
      refine ⟨fun second hs => ?_, fun e hs => ?_⟩
      · rw [parse_of_ok hsecond] at hs
        cases hs
        rw [hwhole, hraise]
      · rw [parse_of_ok hsecond] at hs
        cases hs
    | error f d' =>
      obtain ⟨c', hsecond⟩ := hrun.error hr rfl
      have hwhole : parse first.file (t₁ ++ t₂) = .error f :=
        parse_of_error (happend.trans (map_of_error hr))
      refine ⟨fun second hs => ?_, fun e hs => ?_⟩
      · rw [parse_of_error hsecond] at hs
        cases hs
      · rw [parse_of_error hsecond] at hs
        cases hs
        exact hwhole

/-- After a function that ends in a branch: another function, and an `else` that no branch takes. -/
theorem parse_append_branch :
    (∃ first second,
      parse "main" (scan "fn f() \x7b if (a) \x7b \x7d \x7d").tokens = .ok first ∧
      parse "main" (scan "fn g() \x7b g(); \x7d").tokens = .ok second ∧
      parse "main" ((scan "fn f() \x7b if (a) \x7b \x7d \x7d").tokens ++
          (scan "fn g() \x7b g(); \x7d").tokens) =
        .ok ⟨"main", first.items ++ second.items.map (Item.renumber (· + 1))⟩) ∧
    ∃ e, parse "main" (scan "else \x7b \x7d").tokens = .error e ∧
      parse "main" ((scan "fn f() \x7b if (a) \x7b \x7d \x7d").tokens ++
        (scan "else \x7b \x7d").tokens) = .error e := by
  have hfirst : (match parse "main" (scan "fn f() \x7b if (a) \x7b \x7d \x7d").tokens with
    | .ok first => first.numbers.length == 1
    | .error _ => false) = true := by decide +kernel
  have hsecond : (parse "main" (scan "fn g() \x7b g(); \x7d").tokens).isOk = true := by
    decide +kernel
  have hother : (parse "main" (scan "else \x7b \x7d").tokens).isOk = false := by decide +kernel
  split at hfirst
  · next first h₁ =>
    have hone : handedOut (scan "fn f() \x7b if (a) \x7b \x7d \x7d").tokens = 1 :=
      (handedOut_of_parse h₁).trans (beq_iff_eq.mp hfirst)
    constructor
    · cases h₂ : parse "main" (scan "fn g() \x7b g(); \x7d").tokens with
      | ok second =>
        have happend := (parse_append h₁).2.1 second h₂
        rw [hone] at happend
        exact ⟨first, second, h₁, rfl, happend⟩
      | error e =>
        rw [h₂] at hsecond
        cases hsecond
    · cases h₂ : parse "main" (scan "else \x7b \x7d").tokens with
      | ok second =>
        rw [h₂] at hother
        cases hother
      | error e => exact ⟨e, rfl, (parse_append h₁).2.2 e h₂⟩
  · cases hfirst

end SourceFile

end StoragePlan
