import StoragePlan.Proofs.Concatenation
import StoragePlan.Proofs.Headway
import StoragePlan.Proofs.Precedence

/-!
The loops of the readers, and the readers that read themselves. The readers count the rounds of a
loop and the depth of brackets and braces down from the number of tokens left. `Loops` is a loop
without such a bound: it goes round until a round says otherwise, and it counts the rounds that have
begun. Since every round decides, there are no more of them than tokens (`loops_within`). That the
bounds on depth are not felt either is `tied`: a reader whose nested part comes after at least one
token is the one that has itself for this part.
-/

namespace StoragePlan

open Reader

/-- What a round of a loop comes to, if the loop is not over before it: the loop goes round once
more, or this was the last round. -/
inductive Turn (σ : Type) where
  | again (s : σ)
  | last (s : σ)

namespace Turn

variable {σ τ : Type}

def map (f : σ → τ) : Turn σ → Turn τ
  | again s => again (f s)
  | last s => last (f s)

/-- What a loop does after a round. -/
def next (L : σ → Reader σ) (s : σ) : Option (Turn σ) → Reader σ
  | none => return s
  | some (again s') => L s'
  | some (last s') => return s'

end Turn

/-- The run of the loop that takes `turn` from the state `s` for as long as it goes on. The number
is that of the rounds that have begun, also of one that fails. -/
inductive Loops {σ : Type} (turn : σ → Reader (Option (Turn σ))) :
    Nat → σ → Cursor → EStateM.Result ParseFault Cursor σ → Prop
  | ended {s : σ} {c d : Cursor} : turn s c = .ok none d → Loops turn 0 s c (.ok s d)
  | last {s s' : σ} {c d : Cursor} : turn s c = .ok (some (.last s')) d →
    Loops turn 1 s c (.ok s' d)
  | failed {s : σ} {c d : Cursor} {e : ParseFault} : turn s c = .error e d →
    Loops turn 1 s c (.error e d)
  | again {n : Nat} {s s' : σ} {c d : Cursor} {r : EStateM.Result ParseFault Cursor σ} :
    turn s c = .ok (some (.again s')) d → Loops turn n s' d r → Loops turn (n + 1) s c r

/-- The loop without a bound has one run, and begins at most as many rounds in it as there are
tokens left. A bound that is not below that number makes no difference. -/
def EndsInTime {σ : Type} (turn : σ → Reader (Option (Turn σ))) (s : σ) (L : Nat → Reader σ) :
    Prop :=
  ∀ n (c : Cursor), c.rest.length ≤ n →
    ∃ k ≤ c.rest.length, ∀ rounds r, Loops turn rounds s c r ↔ rounds = k ∧ r = L n c

section Loops

variable {α σ : Type} {turn : σ → Reader (Option (Turn σ))} {c : Cursor}

theorem Decides.shorter {x : Reader (Option α)} (h : Decides x) {a : α} {d : Cursor}
    (hx : x c = .ok (some a) d) : d.rest.length < c.rest.length := by
  obtain ⟨hread, hlt⟩ := (h c).ok hx
  have hlength := hread.length
  omega

/-- After a round two loops go on alike, if they do wherever there are fewer tokens left. -/
theorem Decides.next_congr {s : σ} (h : Decides (turn s)) {L M : σ → Reader σ}
    (hLM : ∀ s' (d : Cursor), d.rest.length < c.rest.length → L s' d = M s' d) :
    (turn s >>= Turn.next L s) c = (turn s >>= Turn.next M s) c := by
  cases hturn : turn s c with
  | error e d => rw [bind_of_error hturn, bind_of_error hturn]
  | ok o d =>
    rw [bind_of_ok hturn, bind_of_ok hturn]
    match o, hturn with
    | none, _ => rfl
    | some (.last s'), _ => rfl
    | some (.again s'), hturn => exact hLM s' d (h.shorter hturn)

/-- The first round says what the run is. -/
theorem loops_iff {s : σ} {k : Nat} {r : EStateM.Result ParseFault Cursor σ} :
    Loops turn k s c r ↔
      match turn s c with
      | .ok none d => k = 0 ∧ r = .ok s d
      | .ok (some (.last s')) d => k = 1 ∧ r = .ok s' d
      | .ok (some (.again s')) d => ∃ n, k = n + 1 ∧ Loops turn n s' d r
      | .error e d => k = 1 ∧ r = .error e d := by
  constructor
  · intro h
    cases h with
    | ended hturn => rw [hturn]; exact ⟨rfl, rfl⟩
    | last hturn => rw [hturn]; exact ⟨rfl, rfl⟩
    | failed hturn => rw [hturn]; exact ⟨rfl, rfl⟩
    | again hturn hrest => rw [hturn]; exact ⟨_, rfl, hrest⟩
  · intro h
    cases hturn : turn s c with
    | error e d =>
      rw [hturn] at h
      obtain ⟨rfl, rfl⟩ := h
      exact .failed hturn
    | ok o d =>
      rw [hturn] at h
      match o, hturn with
      | none, hturn =>
        obtain ⟨rfl, rfl⟩ := h
        exact .ended hturn
      | some (.last s'), hturn =>
        obtain ⟨rfl, rfl⟩ := h
        exact .last hturn
      | some (.again s'), hturn =>
        obtain ⟨n, rfl, hrest⟩ := h
        exact .again hturn hrest

/-- Each round takes a token, and where there is none the loop is over before the next one. -/
theorem loops_within {L : Nat → σ → Reader σ} (hdecides : ∀ s, Decides (turn s))
    (hend : ∀ s, Declines (turn s) []) (hzero : ∀ s, L 0 s = return s)
    (hstep : ∀ n s (c : Cursor), c.rest.length ≤ n + 1 →
      L (n + 1) s c = (turn s >>= Turn.next (L n) s) c) (s : σ) :
    EndsInTime turn s fun n => L n s := by
  intro n c hc
  change ∃ k ≤ c.rest.length, ∀ rounds r, Loops turn rounds s c r ↔ rounds = k ∧ r = L n s c
  induction n generalizing s c with
  | zero =>
    have hturn := hend s c (List.length_eq_zero_iff.mp (Nat.le_zero.mp hc))
    refine ⟨0, Nat.zero_le _, fun rounds r => ?_⟩
    rw [loops_iff, hturn, hzero]
    rfl
  | succ n ih =>
    -- A round that has begun has found a token, so it may be counted also where it fails.
    have hbegun : turn s c ≠ .ok none c → 1 ≤ c.rest.length := by
      intro hturn
      exact List.length_pos_iff.mpr fun hnil => hturn (hend s c hnil)
    have hrun := hstep n s c hc
    cases hturn : turn s c with
    | error e d =>
      rw [bind_of_error hturn] at hrun
      refine ⟨1, hbegun (by simp [hturn]), fun rounds r => ?_⟩
      rw [loops_iff, hturn, hrun]
    | ok o d =>
      rw [bind_of_ok hturn] at hrun
      match o, hturn with
      | none, hturn =>
        refine ⟨0, Nat.zero_le _, fun rounds r => ?_⟩
        rw [loops_iff, hturn, hrun]
        rfl
      | some (.last s'), hturn =>
        refine ⟨1, hbegun (by simp [hturn]), fun rounds r => ?_⟩
        rw [loops_iff, hturn, hrun]
        rfl
      | some (.again s'), hturn =>
        have hlt := (hdecides s).shorter hturn
        obtain ⟨k, hk, hrest⟩ := ih s' d (by omega)
        refine ⟨k + 1, by omega, fun rounds r => ?_⟩
        rw [loops_iff, hturn, hrun]
        simp only [hrest, Turn.next]
        constructor
        · rintro ⟨_, rfl, rfl, rfl⟩
          exact ⟨rfl, rfl⟩
        · rintro ⟨rfl, rfl⟩
          exact ⟨k, rfl, rfl, rfl⟩

/-! ### Loops that collect -/

/-- The loop that puts what its body finds after what it has. -/
def collecting (body : Reader (Option (Turn α))) (found : List α) :
    Reader (Option (Turn (List α))) :=
  (·.map (·.map fun a => found ++ [a])) <$> body

/-- What is found first stands before what the rest of the loop finds. -/
def gathered (M : Reader (List α)) : Option (Turn α) → Reader (List α)
  | none => return []
  | some (.again a) => return a :: (← M)
  | some (.last a) => return [a]

theorem collects {body : Reader (Option (Turn α))} {M : Nat → Reader (List α)}
    (hdecides : Decides body) (hend : Declines body [])
    (hzero : M 0 = return []) (hstep : ∀ n, M (n + 1) = body >>= gathered (M n)) :
    EndsInTime (collecting body) [] M := by
  let L (n : Nat) (found : List α) : Reader (List α) := (found ++ ·) <$> M n
  have hround : ∀ n found, L (n + 1) found = collecting body found >>= Turn.next (L n) found := by
    intro n found
    simp only [L, hstep, collecting, bind_map_left, map_bind]
    congr 1
    funext o
    match o with
    | none => simp [gathered, Turn.next]
    | some (.last a) => simp [gathered, Turn.next, Turn.map]
    | some (.again a) => simp [gathered, Turn.next, Turn.map]
  have hloop : EndsInTime (collecting body) [] fun n => L n [] :=
    loops_within (fun _ => hdecides.as) (fun _ => hend.map) (fun found => by simp [L, hzero])
      (fun n found c _ => congrFun (hround n found) c) []
  simpa [L] using hloop

end Loops

/-! ### The loops of the readers -/

theorem declines_end (test : Token → Bool) : Declines (nextIf? test) [] :=
  declines_nextIf fun _ h => by cases h

namespace Expr

variable {sub : Reader (Option Expr)} {c : Cursor}

/-- An argument, and the comma after it. -/
def argument? (sub : Reader (Option Expr)) : Reader (Option (Turn Expr)) := do
  match ← sub with
  | none => return none
  | some e =>
    match ← accept? (.mark .comma) with
    | none => return some (.last e)
    | some _ => return some (.again e)

/-- A field or a subscript after `e`. -/
def suffix? (sub : Reader (Option Expr)) (e : Expr) : Reader (Option (Turn Expr)) := do
  match ← accept? (.operator .dot) with
  | some op =>
    match ← acceptName? with
    | some field =>
      let right := Expr.ident (← newId) field
      return some (.again (.binary (← newId) e op right))
    | none => fail op.position (.expectedNameAfter (.operator .dot))
  | none =>
    match ← accept? (.mark .leftBracket) with
    | some bracket =>
      let subscript ← required sub bracket
      let _ ← require (.mark .rightBracket)
      return some (.again (.index (← newId) e bracket subscript))
    | none => return none

/-- An operator of level `least` or above after `left`, and all that binds tighter after it. -/
def join? (sub : Reader (Option Expr)) (least : Nat) (left : Expr) :
    Reader (Option (Turn Expr)) := do
  match ← nextIf? (bindsFrom least) with
  | none => return none
  | some op =>
    match ← binaryOf sub (op.lexeme.level?.getD 0 + 1) with
    | none => fail op.position (.expectedExprAfter op.lexeme)
    | some right => return some (.again (.binary (← newId) left op right))

theorem decides_argument? (hs : Decides sub) : Decides (argument? sub) := by
  refine hs.optional .nothing fun e => ?_
  exact (Decides.accept? _).thenMoves (.pure rfl) fun comma => .pure rfl

theorem decides_suffix? (hs : Decides sub) (e : Expr) : Decides (suffix? sub e) := by
  refine (Decides.accept? _).optional ?_ fun dot => ?_
  · refine (Decides.accept? _).optional .nothing fun bracket => ?_
    refine (moves_required hs bracket).bind fun i => (moves_require _).bind fun r => ?_
    exact .newId fun id => .pure rfl
  · refine Decides.acceptName?.thenMoves (.fail _ _) fun field => ?_
    exact .newId fun id => .newId fun id' => .pure rfl

theorem decides_join? (hs : Decides sub) (least : Nat) (left : Expr) :
    Decides (join? sub least left) := by
  refine (Decides.nextIf? _).optional .nothing fun op => ?_
  refine (decides_binaryOf hs _).thenMoves (.fail _ _) fun right => ?_
  exact .newId fun id => .pure rfl

theorem arguments_end (hs : Decides sub) (hd : Declines sub []) :
    EndsInTime (collecting (argument? sub)) [] (arguments sub) := by
  refine collects (decides_argument? hs) (hd.bind .pure) rfl fun n => ?_
  rw [arguments, argument?, bind_assoc]
  congr 1
  funext o
  cases o with
  | none => rfl
  | some e =>
    dsimp only
    rw [bind_assoc]
    congr 1
    funext comma
    cases comma <;> rfl

theorem suffixes_succ (n : Nat) (e : Expr) :
    suffixes sub (n + 1) e = suffix? sub e >>= Turn.next (suffixes sub n) e := by
  rw [suffixes, suffix?, bind_assoc]
  congr 1
  funext o
  cases o with
  | none =>
    dsimp only
    rw [bind_assoc]
    congr 1
    funext bracket
    cases bracket with
    | none => rfl
    | some bracket => simp only [bind_assoc, pure_bind, Turn.next]
  | some op =>
    dsimp only
    rw [bind_assoc]
    congr 1
    funext field
    cases field with
    | none => rfl
    | some field => simp only [bind_assoc, pure_bind, Turn.next]

theorem suffixes_end (hs : Decides sub) (e : Expr) :
    EndsInTime (suffix? sub) e fun n => suffixes sub n e := by
  have hover : ∀ e, Declines (suffix? sub e) [] := fun e => (declines_end _).bind <|
    (declines_end _).bind .pure
  exact loops_within (decides_suffix? hs) hover (fun _ => rfl)
    (fun n e c _ => by rw [suffixes_succ]) e

/-- The loop of the operators, with the readers of all levels for the right sides. -/
theorem joins_next (hs : Derives sub (Optional Grammar.Expression)) (least : Nat) (left : Expr) :
    joins (operandOf sub) least left =
      join? sub least left >>= Turn.next (joins (operandOf sub) least) left := by
  rw [joins_eq (derives_operandOf hs), join?, bind_assoc]
  congr 1
  funext o
  cases o with
  | none => rfl
  | some op =>
    dsimp only
    rw [bind_assoc, binaryOf_eq_levelOf hs, levelOf_bind, joinsAfter]
    congr 1

theorem joins_end (hs : Derives sub (Optional Grammar.Expression)) (hd : Decides sub) (least : Nat)
    (left : Expr) :
    EndsInTime (join? sub least) left fun n => climb (operandOf sub) n least left := by
  have ho := derives_operandOf hs
  have hturn := decides_join? hd least
  have hover : ∀ left, Declines (join? sub least left) [] := fun left => (declines_end _).bind .pure
  refine loops_within (L := fun n left => climb (operandOf sub) n least left) hturn hover
    (fun _ => rfl) (fun n left c hc => ?_) left
  rw [climb_eq_joins ho hc, joins_next hs]
  refine (hturn left).next_congr fun e d hlt => ?_
  exact (climb_eq_joins ho (by omega)).symm

end Expr

/-- A dimension. -/
def Annotation.dimension? : Reader (Option (Turn (Int × Position))) := do
  match ← accept? (.mark .leftBracket) with
  | none => return none
  | some bracket =>
    match ← accept? (.integer 0) with
    | some ⟨.integer d, position⟩ =>
      let _ ← require (.mark .rightBracket)
      return some (.again (d, position))
    | _ => fail bracket.position .expectedDimension

theorem Annotation.decides_dimension? : Decides dimension? := by
  refine (Decides.accept? _).optional .nothing fun bracket => ?_
  refine (Decides.accept? _).moves.bind fun o => ?_
  split
  · exact (moves_require _).bind fun r => .pure rfl
  · exact .fail _ _

theorem Annotation.dimensions_end : EndsInTime (collecting dimension?) [] dimensions := by
  refine collects decides_dimension? ((declines_end _).bind .pure) rfl fun n => ?_
  rw [dimensions, dimension?, bind_assoc]
  congr 1
  funext o
  cases o with
  | none => rfl
  | some bracket =>
    dsimp only
    rw [bind_assoc]
    congr 1
    funext o
    cases o with
    | none => rfl
    | some t =>
      obtain ⟨lexeme, position⟩ := t
      cases lexeme with
      | integer d => simp only [bind_assoc, pure_bind, gathered]
      | _ => rfl

/-- A field, and the comma after it. -/
def Field.next? : Reader (Option (Turn Field)) := do
  match ← acceptName? with
  | none => return none
  | some name =>
    let annotation ← Annotation.readAfterColon
    match ← accept? (.mark .comma) with
    | none => return some (.last ⟨name, annotation⟩)
    | some _ => return some (.again ⟨name, annotation⟩)

theorem Field.decides_next? : Decides next? := by
  refine Decides.acceptName?.optional .nothing fun name => ?_
  refine Moves.bind Annotation.moves_readAfterColon fun a => ?_
  exact (Decides.accept? _).thenMoves (.pure rfl) fun comma => .pure rfl

theorem Field.readMany_ends : EndsInTime (collecting next?) [] readMany := by
  refine collects decides_next? ((declines_end _).bind .pure) rfl fun n => ?_
  rw [readMany, next?, bind_assoc]
  congr 1
  funext o
  cases o with
  | none => rfl
  | some name =>
    dsimp only
    simp only [bind_assoc]
    congr 1
    funext a
    congr 1
    funext comma
    cases comma <;> rfl

/-- The loop of a block goes on after each statement. -/
theorem Block.statements_end {sub : Reader (Option Stmt)} (hs : Decides sub)
    (hd : Declines sub []) :
    EndsInTime (collecting ((·.map .again) <$> sub)) [] (Block.statements sub) := by
  refine collects hs.as hd.map rfl fun n => ?_
  rw [Block.statements, bind_map_left]
  congr 1
  funext o
  cases o <;> rfl

/-- An item, unless all tokens are read; then nothing else may stand there. -/
def Item.next? : Reader (Option (Turn Item)) := do
  if (← get).rest.isEmpty then
    return none
  else
    match ← Item.read? with
    | some item => return some (.again item)
    | none =>
      let c ← get
      fail c.position (.expectedDeclaration c.found?)

theorem Item.decides_next? : Decides Item.next? := by
  refine .get fun c => ?_
  split
  · exact .nothing
  · exact Item.decides_read?.optional (.get fun c => .fail _ _) fun item => .pure rfl

theorem Item.readAll_ends : EndsInTime (collecting Item.next?) [] Item.readAll := by
  refine collects Item.decides_next? ?_ rfl fun n => ?_
  · exact .get fun c hc => by simp only [hc]; exact .pure
  · rw [Item.readAll, Item.next?, bind_assoc]
    congr 1
    funext c
    split
    · rfl
    · rw [bind_assoc]
      congr 1
      funext o
      cases o <;> rfl

/-! ### Readers that read themselves -/

section Tied

variable {α : Type}

/-- The two readers do the same where fewer than `n` tokens are left. -/
def SameBelow (n : Nat) (x y : Reader α) : Prop := ∀ c : Cursor, c.rest.length < n → x c = y c

theorem Moves.derives {x : Reader α} (h : Moves x) : Derives x fun _ _ => True := fun c =>
  (h c).mono (fun _ _ ⟨_, read, hread, _⟩ => ⟨read, hread, trivial⟩) (fun _ _ _ => trivial)

variable {L : Nat → Reader (Option α)} {step : Reader (Option α) → Reader (Option α)}
  (hdecides : ∀ n, Decides (L n)) (hend : ∀ c : Cursor, c.rest = [] → L 0 c = L 1 c)
  (hL : ∀ n, L (n + 1) = step (L n))
  (hstep : ∀ x y (c : Cursor), Decides y → SameBelow c.rest.length x y → step x c = step y c)

include hdecides hend hL hstep

theorem bound_succ {n : Nat} {c : Cursor} (hc : c.rest.length ≤ n) : L n c = L (n + 1) c := by
  induction n generalizing c with
  | zero => exact hend c (List.length_eq_zero_iff.mp (Nat.le_zero.mp hc))
  | succ n ih =>
    have hsame : SameBelow c.rest.length (L n) (L (n + 1)) := fun d hd => ih (by omega)
    rw [hL n, hL (n + 1), hstep _ _ c (hdecides (n + 1)) hsame]

/-- Where the nested part is read only after a token, the bound on the depth is not felt: the reader
is the one that reads itself for its nested part. -/
theorem tied : (do L (← get).rest.length) = step (do L (← get).rest.length) := by
  have hbound : ∀ {n m : Nat} {c : Cursor}, c.rest.length ≤ n → n ≤ m → L n c = L m c := by
    intro n m c hc hm
    induction hm with
    | refl => rfl
    | step hm ih => exact ih.trans (bound_succ hdecides hend hL hstep (Nat.le_trans hc hm))
  funext c
  calc L c.rest.length c
    _ = L (c.rest.length + 1) c := hbound (Nat.le_refl _) (Nat.le_succ _)
    _ = step (L c.rest.length) c := by rw [hL]
    _ = step (do L (← get).rest.length) c := by
      refine hstep _ _ c (.get fun _ => hdecides _) fun d hd => ?_
      exact (hbound (Nat.le_refl _) (Nat.le_of_lt hd)).symm

end Tied

namespace Expr

/-- One level of brackets and what is in them. -/
theorem read?_tied : read? = binaryOf read? 1 :=
  read?_eq_levelOf.trans (binaryOf_eq_levelOf derives_read? 1).symm

/-- An operand with `next` for what comes after a unary operator. -/
def unaryWith (sub next : Reader (Option Expr)) : Reader (Option Expr) := do
  match ← acceptAny? [.operator .minus, .operator .not, .operator .bitNot] with
  | none => suffixed sub
  | some op =>
    match ← next with
    | none => fail op.position (.expectedExprAfter op.lexeme)
    | some operand => return some (← applyUnary op operand)

theorem operandOf_tied {sub : Reader (Option Expr)} (hs : Decides sub) :
    operandOf sub = unaryWith sub (operandOf sub) := by
  refine tied (L := unaryOf sub) (decides_unaryOf hs) ?_ (fun _ => rfl) ?_
  · rintro ⟨index, rest, final, nextId⟩ hc
    cases hc
    rfl
  · intro x y c _ h
    exact nextIf?_agree rfl fun op d _ hd => bind_congr_run (h d hd)

end Expr

section Statements

variable {sub sub' : Reader (Option Stmt)} {n : Nat} {c : Cursor}

theorem Block.statements_same (hs : Decides sub') (h : SameBelow n sub sub')
    (hc : c.rest.length < n) (m : Nat) : Block.statements sub m c = Block.statements sub' m c := by
  induction m generalizing c with
  | zero => rfl
  | succ m ih =>
    refine hs.moves.derives.bind_agree (h c hc) fun o d hd => ?_
    cases o with
    | none => rfl
    | some s => exact bind_congr_run (ih (by omega))

theorem Block.readWith?_same (hs : Decides sub') (h : SameBelow n sub sub')
    (hc : c.rest.length ≤ n) : Block.readWith? sub c = Block.readWith? sub' c :=
  nextIf?_agree rfl fun _ _ _ hd => bind_congr_run (Block.statements_same hs h (by omega) _)

theorem Block.requireWith_same (hs : Decides sub') (h : SameBelow n sub sub')
    (hc : c.rest.length ≤ n) : Block.requireWith sub c = Block.requireWith sub' c :=
  bind_congr_run (Block.readWith?_same hs h hc)

namespace Stmt

/-- A branch with `next` for the one that may follow `else`. -/
def branching (sub : Reader (Option Stmt)) (next : Reader (Option Branch)) :
    Reader (Option Branch) := do
  match ← accept? (.keyword .ifKw) with
  | none => return none
  | some token =>
    let condition ← Expr.readAfter token
    let thenBlock ← Block.requireWith sub
    match ← accept? (.keyword .elseKw) with
    | none => return some ⟨token, condition, thenBlock, none⟩
    | some elseToken =>
      match ← next with
      | some inner => return some ⟨token, condition, thenBlock, some (inner.toElse elseToken)⟩
      | none => return some ⟨token, condition, thenBlock, some (← Block.requireWith sub)⟩

/-- Branches with at most as many `else if` as there are tokens left. -/
def branch? (sub : Reader (Option Stmt)) : Reader (Option Branch) := do
  branchWith? sub (← get).rest.length

theorem branch?_tied (hs : Decides sub) : branch? sub = branching sub (branch? sub) := by
  refine tied (L := branchWith? sub) (decides_branchWith? hs) ?_ (fun _ => rfl) ?_
  · rintro ⟨index, rest, final, nextId⟩ hc
    cases hc
    rfl
  · intro x y c _ h
    refine nextIf?_agree rfl fun token d _ hd => ?_
    refine (Expr.derives_readAfter token).bind_agree rfl fun e d₁ hd₁ => ?_
    refine (Block.moves_requireWith hs).derives.bind_agree rfl fun b d₂ hd₂ => ?_
    exact nextIf?_agree rfl fun other d₃ _ hd₃ => bind_congr_run (h d₃ (by omega))

theorem branchWith?_same (hs : Decides sub') (h : SameBelow n sub sub') (hc : c.rest.length ≤ n)
    (m : Nat) : branchWith? sub m c = branchWith? sub' m c := by
  induction m generalizing c with
  | zero => rfl
  | succ m ih =>
    refine nextIf?_agree rfl fun token d _ hd => ?_
    refine (Expr.derives_readAfter token).bind_agree rfl fun e d₁ hd₁ => ?_
    have hblock : ∀ {d : Cursor}, d.rest.length ≤ d₁.rest.length →
        Block.requireWith sub d = Block.requireWith sub' d := fun hd =>
      Block.requireWith_same hs h (by omega)
    have hmoves := (Block.moves_requireWith hs).derives
    refine hmoves.bind_agree (hblock (Nat.le_refl _)) fun b d₂ hd₂ => ?_
    refine nextIf?_agree rfl fun other d₃ _ hd₃ => ?_
    refine (decides_branchWith? hs m).moves.derives.bind_agree (ih (by omega)) fun o d₄ hd₄ => ?_
    cases o with
    | none => exact bind_congr_run (hblock (by omega))
    | some inner => rfl

/-- The first of the alternatives is as good as another one. -/
theorem firstOf_congr {α : Type} {r r' : Reader (Option α)} {rs rs' : List (Reader (Option α))}
    (hd : Decides r') (h : r c = r' c) (hrest : firstOf rs c = firstOf rs' c) :
    firstOf (r :: rs) c = firstOf (r' :: rs') c := by
  rw [firstOf, firstOf]
  cases hrun : r' c with
  | error e d => rw [bind_of_error hrun, bind_of_error (h.trans hrun)]
  | ok o d =>
    rw [bind_of_ok hrun, bind_of_ok (h.trans hrun)]
    cases o with
    | none =>
      obtain rfl : d = c := (hd c).ok hrun
      exact hrest
    | some a => rfl

theorem readWith?_same (hs : Decides sub') (h : SameBelow n sub sub') (hc : c.rest.length ≤ n) :
    readWith? sub c = readWith? sub' c := by
  have hblock : Block.readWith? sub c = Block.readWith? sub' c := Block.readWith?_same hs h hc
  have hloop : loopWith? sub c = loopWith? sub' c := by
    refine nextIf?_agree rfl fun token d _ hd => ?_
    refine (Expr.derives_readAfter token).bind_agree rfl fun e d₁ hd₁ => ?_
    exact bind_congr_run (Block.requireWith_same hs h (by omega))
  rw [readWith?_eq, readWith?_eq, bind_get, bind_get]
  split
  · rfl
  · refine firstOf_congr (VariableDecl.decides_read? false).as rfl ?_
    refine firstOf_congr (ConstantDecl.decides_read? false).as rfl ?_
    refine firstOf_congr (TypeDef.decides_read? false).as rfl ?_
    refine firstOf_congr (decides_branchWith? hs _).as
      (map_run_congr (branchWith?_same hs h hc _)) ?_
    refine firstOf_congr (decides_loopWith? hs) hloop ?_
    refine firstOf_congr decides_ret? rfl ?_
    exact firstOf_congr (Block.decides_readWith? hs).as (map_run_congr hblock) rfl

/-- One level of braces and what is in them. -/
theorem read?_tied : read? = readWith? read? := by
  refine tied (L := nested) decides_nested (fun c hc => ?_) (fun _ => rfl) ?_
  · rw [declines_nested 0 c hc, declines_nested 1 c hc]
  · exact fun x y c hy h => readWith?_same hy h (Nat.le_refl _)

end Stmt

end Statements

/-! ### All readers and all loops -/

/-- Every reader that may find nothing, from the items of a file to a call. -/
structure ReadersMakeHeadway : Prop where
  item : Headway Item.read?
  importFile : Headway Import.read?
  typeDef : ∀ exported, Headway (TypeDef.read? exported)
  function : ∀ exported, Headway (FunctionDef.read? exported)
  varDecl : ∀ exported, Headway (VariableDecl.read? exported)
  constDecl : ∀ exported, Headway (ConstantDecl.read? exported)
  annotation : Headway Annotation.read?
  block : Headway (Block.readWith? Stmt.read?)
  statement : Headway Stmt.read?
  branch : Headway (Stmt.branch? Stmt.read?)
  loop : Headway (Stmt.loopWith? Stmt.read?)
  ret : Headway Stmt.ret?
  simple : Headway Stmt.simple?
  expression : Headway Expr.read?
  binary : ∀ least, Headway (Expr.binaryOf Expr.read? least)
  unary : Headway (Expr.operandOf Expr.read?)
  suffixed : Headway (Expr.suffixed Expr.read?)
  primary : Headway (Expr.primary Expr.read?)
  call : Headway (Expr.callOf Expr.read?)

/-- Every loop of the readers, with the state that it starts from. -/
structure LoopsEndInTime : Prop where
  items : EndsInTime (collecting Item.next?) [] Item.readAll
  fields : EndsInTime (collecting Field.next?) [] Field.readMany
  dimensions : EndsInTime (collecting Annotation.dimension?) [] Annotation.dimensions
  statements : EndsInTime (collecting ((·.map .again) <$> Stmt.read?)) []
    (Block.statements Stmt.read?)
  arguments : EndsInTime (collecting (Expr.argument? Expr.read?)) [] (Expr.arguments Expr.read?)
  suffixes : ∀ e, EndsInTime (Expr.suffix? Expr.read?) e fun n => Expr.suffixes Expr.read? n e
  joins : ∀ least left, EndsInTime (Expr.join? Expr.read? least) left fun n =>
    Expr.climb (Expr.operandOf Expr.read?) n least left

/-- The readers that read themselves, without a bound on the depth. -/
structure ReadersTied : Prop where
  expression : Expr.read? = Expr.binaryOf Expr.read? 1
  unary : Expr.operandOf Expr.read? = Expr.unaryWith Expr.read? (Expr.operandOf Expr.read?)
  statement : Stmt.read? = Stmt.readWith? Stmt.read?
  branch : Stmt.branch? Stmt.read? = Stmt.branching Stmt.read? (Stmt.branch? Stmt.read?)

theorem readersMakeHeadway : ReadersMakeHeadway where
  item := Item.decides_read?.headway
  importFile := Import.decides_read?.headway
  typeDef exported := (TypeDef.decides_read? exported).headway
  function exported := (FunctionDef.decides_read? exported).headway
  varDecl exported := (VariableDecl.decides_read? exported).headway
  constDecl exported := (ConstantDecl.decides_read? exported).headway
  annotation := Annotation.decides_read?.headway
  block := (Block.decides_readWith? Stmt.decides_read?).headway
  statement := Stmt.decides_read?.headway
  branch := Decides.headway (.get fun _ => Stmt.decides_branchWith? Stmt.decides_read? _)
  loop := (Stmt.decides_loopWith? Stmt.decides_read?).headway
  ret := Stmt.decides_ret?.headway
  simple := Stmt.decides_simple?.headway
  expression := Expr.decides_read?.headway
  binary least := (Expr.decides_binaryOf Expr.decides_read? least).headway
  unary := (Expr.decides_operandOf Expr.decides_read?).headway
  suffixed := (Expr.decides_suffixed Expr.decides_read?).headway
  primary := (Expr.decides_primary Expr.decides_read?).headway
  call := (Expr.decides_callOf Expr.decides_read?).headway

theorem loopsEndInTime : LoopsEndInTime where
  items := Item.readAll_ends
  fields := Field.readMany_ends
  dimensions := Annotation.dimensions_end
  statements := Block.statements_end Stmt.decides_read? (.get fun _ _ => Stmt.declines_nested _)
  arguments := Expr.arguments_end Expr.decides_read? (.get fun _ _ => Expr.declines_nested _)
  suffixes := Expr.suffixes_end Expr.decides_read?
  joins := Expr.joins_end Expr.derives_read? Expr.decides_read?

theorem readersTied : ReadersTied where
  expression := Expr.read?_tied
  unary := Expr.operandOf_tied Expr.decides_read?
  statement := Stmt.read?_tied
  branch := Stmt.branch?_tied Stmt.decides_read?

/-- Reading makes headway: what is not found costs nothing and what is found costs a token, wherever
a reader starts. So no loop goes round more often than there are tokens left; and neither the bounds
on rounds nor those on depth are ever felt. -/
theorem reading_makes_headway : ReadersMakeHeadway ∧ LoopsEndInTime ∧ ReadersTied :=
  ⟨readersMakeHeadway, loopsEndInTime, readersTied⟩

/-- After `export` nothing is found either, but a token is gone, so this is a failure. -/
example : ∃ e d, Item.read? (.ofTokens [⟨.keyword .exportKw, .start⟩]) = .error e d ∧ d.index = 1 :=
  ⟨_, _, rfl, rfl⟩

end StoragePlan
