import StoragePlan.Proofs.Derivations

/-!
Reading an expression by climbing is reading it level by level. A reader of level `k` reads an
operand of level `k + 1` and goes on, to the left, as long as an operator of level `k` follows;
level 11 is an operand without binary operators. `climb` has one loop for all levels instead; the
argument is that the ten loops in turn, from the tightest to the loosest, satisfy the equation of
that one loop (`joins_eq`), because no operator that binds tighter is left where a loop stops.

The description of the levels, `LevelReaders`, has no bound on loops or on depth. That the bounds of
the readers are never felt is `chainOf_eq` for loops and `nested_bound` for brackets; then the
description determines the reader, `reading_by_levels`.
-/

namespace StoragePlan

open Reader Grammar

/-! ### Two readers side by side -/

section Agree

variable {α β : Type} {x y : Reader α} {f g : α → Reader β} {P : List Token → α → Prop}
  {c c' : Cursor}

theorem Derives.length_le {a : α} (h : Derives x P) (hx : x c = .ok a c') :
    c'.rest.length ≤ c.rest.length := by
  obtain ⟨read, hread, -⟩ := (h c).ok hx
  rw [hread, List.length_append]
  omega

/-- Two pairs of steps agree if the first steps do and the second ones do on what is left. -/
theorem Derives.bind_agree (hy : Derives y P) (hx : x c = y c)
    (hf : ∀ a c', c'.rest.length ≤ c.rest.length → f a c' = g a c') :
    (x >>= f) c = (y >>= g) c := by
  cases hyc : y c with
  | ok a c' => rw [bind_of_ok hyc, bind_of_ok (hx.trans hyc), hf a c' (hy.length_le hyc)]
  | error e c' => rw [bind_of_error hyc, bind_of_error (hx.trans hyc)]

theorem nextIf?_agree {test : Token → Bool} {f g : Option Token → Reader β}
    (hnone : f none c = g none c)
    (hsome : ∀ t c', test t = true → c'.rest.length < c.rest.length → f (some t) c' = g (some t) c') :
    (nextIf? test >>= f) c = (nextIf? test >>= g) c := by
  cases hn : nextIf? test c with
  | error e c' => rw [bind_of_error hn, bind_of_error hn]
  | ok o c' =>
    rw [bind_of_ok hn, bind_of_ok hn]
    unfold nextIf? at hn
    split at hn
    · cases hn
      exact hnone
    · next t rest hrest =>
      split at hn
      · next ht =>
        cases hn
        apply hsome t _ ht
        simp [hrest]
      · cases hn
        exact hnone

theorem newId_agree {f g : Nat → Reader β}
    (h : ∀ id c', c'.rest = c.rest → f id c' = g id c') : (newId >>= f) c = (newId >>= g) c :=
  h c.nextId { c with nextId := c.nextId + 1 } rfl

theorem bind_congr_run (h : x c = y c') : (x >>= f) c = (y >>= f) c' := by
  cases hyc : y c' with
  | ok a c'' => rw [bind_of_ok hyc, bind_of_ok (h.trans hyc)]
  | error e c'' => rw [bind_of_error hyc, bind_of_error (h.trans hyc)]

/-- A token is taken, or the next one does not pass the test. -/
theorem ends_nextIf? {test : Token → Bool} {f : Option Token → Reader β} {done : β → Cursor → Prop}
    {failed : ParseFault → Cursor → Prop}
    (hnone : (∀ t, c.rest.head? = some t → test t = false) → Ends (f none) c done failed)
    (hsome : ∀ t c', test t = true → c'.rest.length < c.rest.length →
      Ends (f (some t)) c' done failed) : Ends (nextIf? test >>= f) c done failed := by
  cases hrest : c.rest with
  | nil =>
    have hn : nextIf? test c = .ok none c := by simp [nextIf?, hrest]
    rw [Ends, bind_of_ok hn]
    exact hnone (by simp [hrest])
  | cons t rest =>
    by_cases ht : test t = true
    · have hn : nextIf? test c = .ok (some t) { c with index := c.index + 1, rest := rest } := by
        simp [nextIf?, hrest, ht]
      rw [Ends, bind_of_ok hn]
      exact hsome t _ ht (by simp [hrest])
    · have hn : nextIf? test c = .ok none c := by simp [nextIf?, hrest, ht]
      rw [Ends, bind_of_ok hn]
      exact hnone (by simpa [hrest] using ht)

end Agree

namespace Expr

/-! ### The levels -/

/-- The binary operators of a level, from the loosest to the tightest. -/
def operatorsOf : Nat → List Operator
  | 1 => [.either]
  | 2 => [.both]
  | 3 => [.bitOr]
  | 4 => [.bitXor]
  | 5 => [.bitAnd]
  | 6 => [.equal, .notEqual]
  | 7 => [.less, .lessEqual, .greater, .greaterEqual]
  | 8 => [.shiftLeft, .shiftRight]
  | 9 => [.add, .minus]
  | 10 => [.mul, .div, .mod]
  | _ => []

def isOfLevel (k : Nat) (t : Token) : Bool := (operatorsOf k).any fun op => t.is (.operator op)

/-- The readers `level k` and `chain k` read level by level: each level reads operands of the next
one and joins them to the left, and brackets around an operand hold an `expression` again. -/
structure LevelReaders (expression : Reader (Option Expr)) (level : Nat → Reader (Option Expr))
    (chain : Nat → Expr → Reader Expr) : Prop where
  top : expression = level 1
  operands : ∀ k, 1 ≤ k → k ≤ 10 → level k = do
    match ← level (k + 1) with
    | none => return none
    | some left => return some (← chain k left)
  operators : ∀ k left, 1 ≤ k → k ≤ 10 → chain k left = do
    match ← nextIf? (isOfLevel k) with
    | none => return left
    | some op =>
      match ← level (k + 1) with
      | none => fail op.position (.expectedExprAfter op.lexeme)
      | some right => chain k (.binary (← newId) left op right)
  unary : level 11 = operandOf expression

/-- An expression whose binary operators outside of brackets are of level `k` and above: left of an
operator stands nothing looser than it, right of it only what is tighter. -/
inductive Leveled : Nat → List Token → Expr → Prop
  | operand {k : Nat} {ts : List Token} {e : Expr} : Operand ts e → Leveled k ts e
  | joined {k j : Nat} {op : Token} {ts us : List Token} {left right : Expr} (id : Nat) :
    k ≤ j → Leveled j ts left → op.lexeme.level? = some j → Leveled (j + 1) us right →
    Leveled k (ts ++ op :: us) (.binary id left op right)

theorem isOfLevel_iff {k : Nat} {t : Token} : isOfLevel k t = true ↔ t.lexeme.level? = some k := by
  have hop : isOfLevel k t = true ↔ ∃ op ∈ operatorsOf k, t.lexeme = .operator op := by
    simp [isOfLevel, is_operator]
  rw [hop]
  constructor
  · rintro ⟨op, hmem, heq⟩
    rw [heq]
    unfold operatorsOf at hmem
    split at hmem <;> simp at hmem <;> grind [Lexeme.level?, Operator.level?]
  · intro h
    cases hl : t.lexeme with
    | operator op =>
      rw [hl] at h
      refine ⟨op, ?_, rfl⟩
      cases op <;> cases h <;> decide
    | _ => simp [hl, Lexeme.level?] at h

theorem level_le {l : Lexeme} {k : Nat} (h : l.level? = some k) : 1 ≤ k ∧ k ≤ 10 := by
  cases l with
  | operator op => cases op <;> cases h <;> decide
  | _ => cases h

theorem bindsFrom_iff {least : Nat} {t : Token} :
    bindsFrom least t = true ↔ ∃ k, least ≤ k ∧ t.lexeme.level? = some k := by
  unfold bindsFrom
  cases t.lexeme.level? <;> simp

theorem Leveled.mono {k j : Nat} {ts : List Token} {e : Expr} (h : Leveled j ts e) (hk : k ≤ j) :
    Leveled k ts e := by
  cases h with
  | operand h => exact .operand h
  | joined id hj hl hop hr => exact .joined id (Nat.le_trans hk hj) hl hop hr

/-! ### Reading level by level -/

/-- At most `n` operators of level `k` with operands from `next`. -/
def chainWithin (next : Reader (Option Expr)) (k : Nat) : Nat → Expr → Reader Expr
  | 0, left => return left
  | n + 1, left => do
    match ← nextIf? (isOfLevel k) with
    | none => return left
    | some op =>
      match ← next with
      | none => fail op.position (.expectedExprAfter op.lexeme)
      | some right => chainWithin next k n (.binary (← newId) left op right)

/-- Joins `left` with the operators of level `k` that follow it. -/
def chainOf (next : Reader (Option Expr)) (k : Nat) (left : Expr) : Reader Expr := do
  chainWithin next k (← get).rest.length left

/-- The level whose operands are read by `next`. -/
def levelAbove (next : Reader (Option Expr)) (k : Nat) : Reader (Option Expr) := do
  match ← next with
  | none => return none
  | some left => return some (← chainOf next k left)

/-- The reader of a level, given the reader of level 11. -/
def levelOf (operand : Reader (Option Expr)) (k : Nat) : Reader (Option Expr) :=
  if k ≤ 10 then levelAbove (levelOf operand (k + 1)) k else operand
termination_by 11 - k

theorem levelOf_of_le {operand : Reader (Option Expr)} {k : Nat} (hk : k ≤ 10) :
    levelOf operand k = levelAbove (levelOf operand (k + 1)) k := by
  rw [levelOf, if_pos hk]

theorem levelOf_of_lt {operand : Reader (Option Expr)} {k : Nat} (hk : 10 < k) :
    levelOf operand k = operand := by
  rw [levelOf, if_neg (Nat.not_le.mpr hk)]

/-- Induction from the tightest level to the loosest. -/
theorem levels_down {motive : Nat → Prop} (operand : ∀ k, 10 < k → motive k)
    (level : ∀ k, k ≤ 10 → motive (k + 1) → motive k) (k : Nat) : motive k := by
  by_cases hk : k ≤ 10
  · exact level k hk (levels_down operand level (k + 1))
  · exact operand k (Nat.not_le.mp hk)
termination_by 11 - k

section Levels

variable {operand next : Reader (Option Expr)} {k : Nat} {c : Cursor}

theorem derives_chainOf (hn : Derives next (Optional (Leveled (k + 1)))) {ts : List Token}
    {left : Expr} (hl : Leveled k ts left) :
    Derives (chainOf next k left) fun read e => Leveled k (ts ++ read) e := by
  have hwithin : ∀ n {ts : List Token} {left : Expr}, Leveled k ts left →
      Derives (chainWithin next k n left) fun read e => Leveled k (ts ++ read) e := by
    intro n
    induction n with
    | zero =>
      intro ts left hl
      exact .pure (by simpa using hl)
    | succ n ih =>
      intro ts left hl
      refine .nextIf (.pure (by simpa using hl)) fun op hop => ?_
      refine hn.optional (.fail _ _) fun right us hr => .newId fun id => ?_
      have hjoined := Leveled.joined id (Nat.le_refl k) hl (isOfLevel_iff.mp hop) hr
      refine (ih hjoined).mono fun read e he => ?_
      simpa using he
  exact .get fun c => hwithin _ hl

theorem derives_levelAbove (hn : Derives next (Optional (Leveled (k + 1)))) :
    Derives (levelAbove next k) (Optional (Leveled k)) := by
  refine hn.optional (.pure rfl) fun left ts hl => ?_
  refine (derives_chainOf hn (hl.mono (Nat.le_succ k))).bind fun e read he => .pure ?_
  simpa [Optional] using he

theorem derives_levelOf (ho : Derives operand (Optional Operand)) (k : Nat) :
    Derives (levelOf operand k) (Optional (Leveled k)) := by
  induction k using levels_down with
  | operand k hk =>
    rw [levelOf_of_lt hk]
    apply ho.mono
    intro read o h
    cases o with
    | none => exact h
    | some e => exact .operand h
  | level k hk ih =>
    rw [levelOf_of_le hk]
    exact derives_levelAbove ih

theorem chainWithin_nil {n : Nat} {left : Expr} (h : c.rest = []) :
    chainWithin next k n left c = .ok left c := by
  cases n with
  | zero => rfl
  | succ n =>
    have hnone : nextIf? (isOfLevel k) c = .ok none c := by simp [nextIf?, h]
    rw [chainWithin, bind_of_ok hnone]
    rfl

theorem forward_chainOf {P : List Token → Expr → Prop} (hn : Derives next (Optional P))
    {left : Expr} : Derives (chainOf next k left) fun _ _ => True := by
  have hwithin : ∀ n left, Derives (chainWithin next k n left) fun _ _ => True := by
    intro n
    induction n with
    | zero =>
      intro left
      exact .pure trivial
    | succ n ih =>
      intro left
      refine .nextIf (.pure trivial) fun op _ => ?_
      exact hn.optional (.fail _ _) fun right _ _ => .newId fun id => ih _
  exact .get fun c => hwithin _ left

/-- A loop that may take more operators than there are tokens takes all there are. -/
theorem chainWithin_bound {P : List Token → Expr → Prop} (hn : Derives next (Optional P))
    {n m : Nat} {left : Expr} (h : c.rest.length ≤ n) (h' : c.rest.length ≤ m) :
    chainWithin next k n left c = chainWithin next k m left c := by
  induction n generalizing m left c with
  | zero =>
    have hnil : c.rest = [] := List.length_eq_zero_iff.mp (Nat.le_zero.mp h)
    rw [chainWithin_nil hnil, chainWithin_nil hnil]
  | succ n ih =>
    cases m with
    | zero =>
      have hnil : c.rest = [] := List.length_eq_zero_iff.mp (Nat.le_zero.mp h')
      rw [chainWithin_nil hnil, chainWithin_nil hnil]
    | succ m =>
      rw [chainWithin, chainWithin]
      apply nextIf?_agree
      · rfl
      · intro op c' _ hc'
        apply hn.bind_agree rfl
        intro o c'' hc''
        cases o with
        | none => rfl
        | some right =>
          apply newId_agree
          intro id c₃ hc₃
          rw [← hc₃] at hc''
          exact ih (by omega) (by omega)

/-- The loop without a bound. -/
theorem chainOf_eq {P : List Token → Expr → Prop} (hn : Derives next (Optional P)) (left : Expr) :
    chainOf next k left = (do
      match ← nextIf? (isOfLevel k) with
      | none => return left
      | some op =>
        match ← next with
        | none => fail op.position (.expectedExprAfter op.lexeme)
        | some right => chainOf next k (.binary (← newId) left op right)) := by
  funext c
  have hmore : chainOf next k left c = chainWithin next k (c.rest.length + 1) left c :=
    chainWithin_bound hn (Nat.le_refl _) (Nat.le_succ _)
  rw [hmore, chainWithin]
  apply nextIf?_agree
  · rfl
  · intro op c' _ hc'
    apply hn.bind_agree rfl
    intro o c'' hc''
    cases o with
    | none => rfl
    | some right =>
      apply newId_agree
      intro id c₃ hc₃
      rw [← hc₃] at hc''
      exact chainWithin_bound hn (by omega) (Nat.le_refl _)

/-! ### One loop for all levels -/

/-- The loops of level 10 down to `k`, one after the other. -/
def joins (operand : Reader (Option Expr)) (k : Nat) (left : Expr) : Reader Expr :=
  if k ≤ 10 then joins operand (k + 1) left >>= chainOf (levelOf operand (k + 1)) k
  else return left
termination_by 11 - k

theorem joins_of_le {left : Expr} (hk : k ≤ 10) :
    joins operand k left = joins operand (k + 1) left >>= chainOf (levelOf operand (k + 1)) k := by
  rw [joins, if_pos hk]

theorem joins_of_lt {left : Expr} (hk : 10 < k) : joins operand k left = return left := by
  rw [joins, if_neg (Nat.not_le.mpr hk)]

/-- A level is an operand and the loops after it. -/
theorem levelOf_eq_joins (k : Nat) : levelOf operand k = (do
    match ← operand with
    | none => return none
    | some first => return some (← joins operand k first)) := by
  induction k using levels_down with
  | operand k hk =>
    rw [levelOf_of_lt hk]
    funext c
    cases ho : operand c with
    | error e c' => rw [bind_of_error ho]
    | ok o c' =>
      rw [bind_of_ok ho]
      cases o with
      | none => rfl
      | some first => simp only [joins_of_lt hk, pure_bind]; rfl
  | level k hk ih =>
    rw [levelOf_of_le hk, levelAbove]
    conv =>
      lhs
      lhs
      rw [ih]
    rw [bind_assoc]
    congr 1
    funext o
    cases o with
    | none => rfl
    | some first => simp only [joins_of_le hk, bind_assoc, pure_bind]

theorem levelOf_bind {β : Type} (f : Option Expr → Reader β) : levelOf operand k >>= f = (do
    match ← operand with
    | none => f none
    | some first => joins operand k first >>= fun e => f (some e)) := by
  rw [levelOf_eq_joins, bind_assoc]
  congr 1
  funext o
  cases o with
  | none => rw [pure_bind]
  | some first => simp only [bind_assoc, pure_bind]

theorem forward_joins (ho : Derives operand (Optional Operand)) {left : Expr} :
    Derives (joins operand k left) fun _ _ => True := by
  induction k using levels_down generalizing left with
  | operand k hk =>
    rw [joins_of_lt hk]
    exact .pure trivial
  | level k hk ih =>
    rw [joins_of_le hk]
    exact ih.bind fun e _ _ => forward_chainOf (derives_levelOf ho (k + 1))

/-- No operator of level `k` or above comes next. -/
def Stopped (k : Nat) (c : Cursor) : Prop := ∀ t, c.rest.head? = some t → bindsFrom k t = false

theorem Stopped.succ (h : Stopped k c) : Stopped (k + 1) c := by
  intro t ht
  have hk := h t ht
  rw [Bool.eq_false_iff, Ne, bindsFrom_iff] at hk ⊢
  rintro ⟨j, hj, hl⟩
  exact hk ⟨j, by omega, hl⟩

theorem nextIf?_of_stopped (h : Stopped k c) : nextIf? (bindsFrom k) c = .ok none c := by
  unfold nextIf?
  cases hrest : c.rest with
  | nil => rfl
  | cons t rest => simp [h t (by simp [hrest])]

theorem chainOf_of_stopped {P : List Token → Expr → Prop} (hn : Derives next (Optional P))
    {left : Expr} (h : Stopped k c) : chainOf next k left c = .ok left c := by
  have hnone : nextIf? (isOfLevel k) c = .ok none c := by
    unfold nextIf?
    cases hrest : c.rest with
    | nil => rfl
    | cons t rest =>
      have ht : isOfLevel k t = false := by
        have hbinds := h t (by simp [hrest])
        rw [Bool.eq_false_iff, Ne, isOfLevel_iff]
        intro hl
        rw [bindsFrom_iff.mpr ⟨k, Nat.le_refl k, hl⟩] at hbinds
        cases hbinds
      simp [ht]
  rw [chainOf_eq hn, bind_of_ok hnone]
  rfl

/-- Where the loop of a level stops, no operator of this level comes next, and none of a tighter
one if its operands are read to their ends. -/
theorem ends_chainOf {P : List Token → Expr → Prop} (hn : Derives next (Optional P))
    (hs : ∀ c e c', next c = .ok (some e) c' → Stopped (k + 1) c') {left : Expr}
    (h : Stopped (k + 1) c) :
    Ends (chainOf next k left) c (fun _ c' => Stopped k c') (fun _ _ => True) := by
  induction hlen : c.rest.length using Nat.strongRecOn generalizing c left with
  | _ n ih =>
  rw [chainOf_eq hn]
  apply ends_nextIf?
  · intro hnone
    apply Ends.pure
    intro t ht
    rw [Bool.eq_false_iff, Ne, bindsFrom_iff]
    rintro ⟨j, hj, hl⟩
    rcases Nat.eq_or_lt_of_le hj with rfl | hj
    · exact Bool.false_ne_true ((hnone t ht).symm.trans (isOfLevel_iff.mpr hl))
    · exact Bool.false_ne_true ((h t ht).symm.trans (bindsFrom_iff.mpr ⟨j, hj, hl⟩))
  · intro op c' _ hc'
    apply Ends.bind
    apply Ends.of_run (fun o c'' hrun => ?_) (fun _ _ _ => trivial)
    cases o with
    | none => exact trivial
    | some right =>
      have hle : c''.rest.length < n := by
        have := hn.length_le hrun
        omega
      exact ih _ hle (hs c' right c'' hrun) rfl

theorem ends_joins (ho : Derives operand (Optional Operand)) {left : Expr} :
    Ends (joins operand k left) c (fun _ c' => Stopped k c') (fun _ _ => True) := by
  induction k using levels_down generalizing c left with
  | operand k hk =>
    rw [joins_of_lt hk]
    apply Ends.pure
    intro t _
    rw [Bool.eq_false_iff, Ne, bindsFrom_iff]
    rintro ⟨j, hj, hl⟩
    have := level_le hl
    omega
  | level k hk ih =>
    rw [joins_of_le hk]
    have hlevel : ∀ c e c', levelOf operand (k + 1) c = .ok (some e) c' → Stopped (k + 1) c' := by
      intro c e c' hrun
      rw [levelOf_eq_joins] at hrun
      obtain ⟨o, c₁, -, hrun⟩ := bind_eq_ok hrun
      cases o with
      | none => cases hrun
      | some first =>
        obtain ⟨e', c₂, hjoins, hrun⟩ := bind_eq_ok hrun
        cases hrun
        exact ih.ok hjoins
    apply ih.seq (fun _ _ h => h)
    intro e c' hc'
    exact ends_chainOf (derives_levelOf ho (k + 1)) hlevel hc'

theorem joins_of_stopped (ho : Derives operand (Optional Operand)) {left : Expr}
    (h : Stopped k c) : joins operand k left c = .ok left c := by
  induction k using levels_down with
  | operand k hk =>
    rw [joins_of_lt hk]
    rfl
  | level k hk ih =>
    rw [joins_of_le hk, bind_of_ok (ih h.succ)]
    exact chainOf_of_stopped (derives_levelOf ho (k + 1)) h

/-- What follows the operator `op` after `left`: its right side, and the operators after that. -/
def joinsAfter (operand : Reader (Option Expr)) (k : Nat) (left : Expr) (op : Token) :
    Reader Expr := do
  match ← operand with
  | none => fail op.position (.expectedExprAfter op.lexeme)
  | some first =>
    let right ← joins operand (op.lexeme.level?.getD 0 + 1) first
    joins operand k (.binary (← newId) left op right)

theorem joins_of_operator (ho : Derives operand (Optional Operand)) {left : Expr} {op : Token}
    {rest : List Token} {j : Nat} (hrest : c.rest = op :: rest) (hop : op.lexeme.level? = some j)
    (hk : k ≤ j) :
    joins operand k left c =
      joinsAfter operand k left op { c with index := c.index + 1, rest := rest } := by
  induction k using levels_down with
  | operand k hlt =>
    have := level_le hop
    omega
  | level k hle ih =>
    rw [joins_of_le hle]
    rcases Nat.lt_or_eq_of_le hk with hlt | rfl
    · -- The operator belongs to a tighter loop, and the loop of this level comes after that one.
      have hassoc : joinsAfter operand k left op =
          joinsAfter operand (k + 1) left op >>= chainOf (levelOf operand (k + 1)) k := by
        simp only [joinsAfter, bind_assoc]
        congr 1
        funext o
        cases o with
        | none => rfl
        | some first => simp only [joins_of_le hle, bind_assoc]
      rw [hassoc]
      exact bind_congr_run (ih hlt)
    · -- The tighter loops find nothing to do, before the operator and after its right side.
      have hstop : Stopped (k + 1) c := by
        intro t ht
        obtain rfl : op = t := by simpa [hrest] using ht
        rw [Bool.eq_false_iff, Ne, bindsFrom_iff]
        rintro ⟨j, hj, hl⟩
        obtain rfl : k = j := Option.some.inj (hop.symm.trans hl)
        omega
      have hnext : nextIf? (isOfLevel k) c =
          .ok (some op) { c with index := c.index + 1, rest := rest } := by
        simp [nextIf?, hrest, isOfLevel_iff.mpr hop]
      rw [bind_of_ok (joins_of_stopped ho hstop), chainOf_eq (derives_levelOf ho (k + 1)),
        bind_of_ok hnext]
      dsimp only
      rw [levelOf_bind, joinsAfter, hop]
      apply ho.bind_agree rfl
      intro o c' _
      cases o with
      | none => rfl
      | some first =>
        dsimp only [Option.getD_some]
        cases hrun : joins operand (k + 1) first c' with
        | error e c'' => rw [bind_of_error hrun, bind_of_error hrun]
        | ok right c'' =>
          rw [bind_of_ok hrun, bind_of_ok hrun]
          apply newId_agree
          intro id c₃ hc₃
          have hend : Stopped (k + 1) c'' := (ends_joins ho).ok hrun
          have hstop₃ : Stopped (k + 1) c₃ := by rwa [Stopped, hc₃]
          rw [joins_of_le hle, bind_of_ok (joins_of_stopped ho hstop₃)]

/-- The ten loops do what the one loop does. -/
theorem joins_eq (ho : Derives operand (Optional Operand)) (left : Expr) :
    joins operand k left = (do
      match ← nextIf? (bindsFrom k) with
      | none => return left
      | some op => joinsAfter operand k left op) := by
  funext c
  by_cases hstop : Stopped k c
  · rw [joins_of_stopped ho hstop, bind_of_ok (nextIf?_of_stopped hstop)]
    rfl
  · simp only [Stopped, Classical.not_forall, Bool.not_eq_false] at hstop
    obtain ⟨op, hhead, hbinds⟩ := hstop
    obtain ⟨rest, hrest⟩ := List.head?_eq_some_iff.mp hhead
    obtain ⟨j, hk, hop⟩ := bindsFrom_iff.mp hbinds
    have hnext : nextIf? (bindsFrom k) c =
        .ok (some op) { c with index := c.index + 1, rest := rest } := by
      simp [nextIf?, hrest, hbinds]
    rw [joins_of_operator ho hrest hop hk, bind_of_ok hnext]

/-- Any loop that takes enough operators does the same. -/
theorem climb_eq_joins (ho : Derives operand (Optional Operand)) {n : Nat} {left : Expr}
    (h : c.rest.length ≤ n) : climb operand n k left c = joins operand k left c := by
  induction n generalizing k left c with
  | zero =>
    have hnil : c.rest = [] := List.length_eq_zero_iff.mp (Nat.le_zero.mp h)
    rw [joins_of_stopped ho (by simp [Stopped, hnil])]
    rfl
  | succ n ih =>
    rw [climb, joins_eq ho]
    apply nextIf?_agree
    · rfl
    · intro op c' _ hc'
      apply ho.bind_agree rfl
      intro o c'' hc''
      cases o with
      | none => rfl
      | some first =>
        apply (forward_joins ho).bind_agree (ih (by omega))
        intro right c₃ hc₃
        apply newId_agree
        intro id c₄ hc₄
        rw [← hc₄] at hc₃
        exact ih (by omega)

end Levels

section Nested

variable {sub sub' : Reader (Option Expr)} {c : Cursor} {n : Nat}

theorem binaryOf_eq_levelOf (hs : Derives sub (Optional Expression)) (k : Nat) :
    binaryOf sub k = levelOf (operandOf sub) k := by
  have ho := derives_operandOf hs
  funext c
  rw [levelOf_eq_joins, binaryOf]
  apply ho.bind_agree rfl
  intro o c' _
  cases o with
  | none => rfl
  | some first => exact bind_congr_run (climb_eq_joins ho (Nat.le_refl _))

/-! ### The bound on the depth -/

theorem forward_require (l : Lexeme) : Derives (Reader.require l) fun _ _ => True :=
  .accept (.get fun _ => .throw _) fun _ _ => .pure trivial

/-- Two readers of nested parts that agree where fewer than `n` tokens are left. Brackets take a
token, so a reader with at most `n` tokens left cannot tell the two apart. -/
def AgreeBelow (n : Nat) (sub sub' : Reader (Option Expr)) : Prop :=
  ∀ c : Cursor, c.rest.length < n → sub c = sub' c

theorem arguments_agree (hs : Derives sub' (Optional Expression)) (h : AgreeBelow n sub sub')
    (hc : c.rest.length < n) (m : Nat) : arguments sub m c = arguments sub' m c := by
  induction m generalizing c with
  | zero => rfl
  | succ m ih =>
    rw [arguments, arguments]
    apply hs.bind_agree (h c hc)
    intro o c' hc'
    cases o with
    | none => rfl
    | some e =>
      apply nextIf?_agree
      · rfl
      · intro comma c'' _ hc''
        exact bind_congr_run (ih (by omega))

theorem callOf_agree (hs : Derives sub' (Optional Expression)) (h : AgreeBelow n sub sub')
    (hc : c.rest.length ≤ n) : callOf sub c = callOf sub' c := by
  rw [callOf, callOf]
  apply nextIf?_agree
  · rfl
  · intro callee c' _ hc'
    apply (forward_require _).bind_agree rfl
    intro paren c'' hc''
    exact bind_congr_run (arguments_agree hs h (by omega) _)

theorem primary_agree (hs : Derives sub' (Optional Expression)) (h : AgreeBelow n sub sub')
    (hc : c.rest.length ≤ n) : primary sub c = primary sub' c := by
  rw [primary, primary]
  apply nextIf?_agree
  · dsimp only
    rw [bind_get, bind_get]
    split
    · exact callOf_agree hs h hc
    · rfl
  · intro paren c' _ hc'
    have hrequired : required sub paren c' = required sub' paren c' :=
      bind_congr_run (h c' (by omega))
    exact bind_congr_run hrequired

theorem suffixes_agree (hs : Derives sub' (Optional Expression)) (h : AgreeBelow n sub sub')
    (hc : c.rest.length ≤ n) (m : Nat) (e : Expr) : suffixes sub m e c = suffixes sub' m e c := by
  induction m generalizing c e with
  | zero => rfl
  | succ m ih =>
    rw [suffixes, suffixes]
    apply nextIf?_agree
    · apply nextIf?_agree
      · rfl
      · intro bracket c' _ hc'
        apply (derives_required hs bracket).bind_agree (bind_congr_run (h c' (by omega)))
        intro subscript c'' hc''
        apply (forward_require _).bind_agree rfl
        intro close c₃ hc₃
        apply newId_agree
        intro id c₄ hc₄
        exact ih (by rw [hc₄]; omega) _
    · intro op c' _ hc'
      apply nextIf?_agree
      · rfl
      · intro field c'' _ hc''
        apply newId_agree
        intro id c₃ hc₃
        apply newId_agree
        intro id' c₄ hc₄
        exact ih (by rw [hc₄, hc₃]; omega) _

theorem suffixed_agree (hs : Derives sub' (Optional Expression)) (h : AgreeBelow n sub sub')
    (hc : c.rest.length ≤ n) : suffixed sub c = suffixed sub' c := by
  rw [suffixed, suffixed]
  apply (derives_primary hs).bind_agree (primary_agree hs h hc)
  intro o c' hc'
  cases o with
  | none => rfl
  | some e => exact bind_congr_run (suffixes_agree hs h (by omega) _ e)

theorem operandOf_agree (hs : Derives sub' (Optional Expression)) (h : AgreeBelow n sub sub')
    (hc : c.rest.length ≤ n) : operandOf sub c = operandOf sub' c := by
  have hunary : ∀ m (c : Cursor), c.rest.length ≤ n → unaryOf sub m c = unaryOf sub' m c := by
    intro m
    induction m with
    | zero =>
      intro c hc
      exact suffixed_agree hs h hc
    | succ m ih =>
      intro c hc
      rw [unaryOf, unaryOf]
      apply nextIf?_agree
      · exact suffixed_agree hs h hc
      · intro op c' _ hc'
        exact bind_congr_run (ih c' (by omega))
  exact hunary _ c hc

theorem chainOf_agree {next next' : Reader (Option Expr)} {P : List Token → Expr → Prop} {k : Nat}
    (hn : Derives next' (Optional P)) (h : ∀ c, c.rest.length ≤ n → next c = next' c)
    (hc : c.rest.length ≤ n) (left : Expr) : chainOf next k left c = chainOf next' k left c := by
  have hwithin : ∀ m (c : Cursor) left, c.rest.length ≤ n →
      chainWithin next k m left c = chainWithin next' k m left c := by
    intro m
    induction m with
    | zero =>
      intro c left _
      rfl
    | succ m ih =>
      intro c left hc
      rw [chainWithin, chainWithin]
      apply nextIf?_agree
      · rfl
      · intro op c' _ hc'
        apply hn.bind_agree (h c' (by omega))
        intro o c'' hc''
        cases o with
        | none => rfl
        | some right =>
          apply newId_agree
          intro id c₃ hc₃
          rw [← hc₃] at hc''
          exact ih _ _ (by omega)
  exact hwithin _ c left hc

theorem levelOf_agree (hs : Derives sub' (Optional Expression)) (h : AgreeBelow n sub sub')
    (hc : c.rest.length ≤ n) (k : Nat) :
    levelOf (operandOf sub) k c = levelOf (operandOf sub') k c := by
  induction k using levels_down generalizing c with
  | operand k hk =>
    rw [levelOf_of_lt hk, levelOf_of_lt hk]
    exact operandOf_agree hs h hc
  | level k hk ih =>
    have hnext := derives_levelOf (derives_operandOf hs) (k + 1)
    rw [levelOf_of_le hk, levelOf_of_le hk, levelAbove, levelAbove]
    apply hnext.bind_agree (ih hc)
    intro o c' hc'
    cases o with
    | none => rfl
    | some left => exact bind_congr_run (chainOf_agree hnext (fun c hc => ih hc) (by omega) left)

theorem nested_nil (h : c.rest = []) (depth : Nat) : nested depth c = .ok none c := by
  obtain ⟨index, rest, final, nextId⟩ := c
  cases h
  cases depth <;> rfl

/-- Depths that are not below the number of tokens left make no difference. -/
theorem nested_bound {d d' : Nat} (h : c.rest.length ≤ d) (h' : c.rest.length ≤ d') :
    nested d c = nested d' c := by
  induction d generalizing d' c with
  | zero =>
    have hnil : c.rest = [] := List.length_eq_zero_iff.mp (Nat.le_zero.mp h)
    rw [nested_nil hnil, nested_nil hnil]
  | succ d ih =>
    cases d' with
    | zero =>
      have hnil : c.rest = [] := List.length_eq_zero_iff.mp (Nat.le_zero.mp h')
      rw [nested_nil hnil, nested_nil hnil]
    | succ d' =>
      have hagree : AgreeBelow c.rest.length (nested d) (nested d') := by
        intro c' hc'
        exact ih (by omega) (by omega)
      rw [nested, nested, binaryOf_eq_levelOf (derives_nested d),
        binaryOf_eq_levelOf (derives_nested d')]
      exact levelOf_agree (derives_nested d') hagree (Nat.le_refl _) 1

/-- An expression is read as one of the loosest level, with nothing but itself for what stands in
brackets. -/
theorem read?_eq_levelOf : read? = levelOf (operandOf read?) 1 := by
  funext c
  have hagree : AgreeBelow c.rest.length (nested c.rest.length) read? := by
    intro c' hc'
    exact nested_bound (Nat.le_of_lt hc') (Nat.le_refl _)
  calc read? c
    _ = nested (c.rest.length + 1) c := nested_bound (Nat.le_refl _) (Nat.le_succ _)
    _ = levelOf (operandOf (nested c.rest.length)) 1 c := by
      rw [nested, binaryOf_eq_levelOf (derives_nested _)]
    _ = levelOf (operandOf read?) 1 c := levelOf_agree derives_read? hagree (Nat.le_refl _) 1

end Nested

/-! ### The one reader of the levels -/

theorem levelReaders_read? : LevelReaders read? (levelOf (operandOf read?))
    fun k => chainOf (levelOf (operandOf read?) (k + 1)) k where
  top := read?_eq_levelOf
  operands k _ hk := levelOf_of_le hk
  operators k left _ _ := chainOf_eq (derives_levelOf (derives_operandOf derives_read?) (k + 1)) left
  unary := levelOf_of_lt (by decide)

section Unique

variable {expression : Reader (Option Expr)} {level : Nat → Reader (Option Expr)}
  {chain : Nat → Expr → Reader Expr}

/-- A loop agrees with the one here up to a number of tokens if its operands agree below that. -/
theorem LevelReaders.chain_agree (h : LevelReaders expression level chain) {k n : Nat}
    (hk : 1 ≤ k) (hk' : k ≤ 10)
    (hlevel : ∀ c, c.rest.length < n → level (k + 1) c = levelOf (operandOf read?) (k + 1) c)
    {c : Cursor} (hc : c.rest.length ≤ n) (left : Expr) :
    chain k left c = chainOf (levelOf (operandOf read?) (k + 1)) k left c := by
  have hnext := derives_levelOf (derives_operandOf derives_read?) (k + 1)
  induction hlen : c.rest.length using Nat.strongRecOn generalizing c left with
  | _ len ih =>
  rw [h.operators k left hk hk', chainOf_eq hnext]
  apply nextIf?_agree
  · rfl
  · intro op c' _ hc'
    apply hnext.bind_agree (hlevel c' (by omega))
    intro o c'' hc''
    cases o with
    | none => rfl
    | some right =>
      apply newId_agree
      intro id c₃ hc₃
      rw [← hc₃] at hc''
      exact ih c₃.rest.length (by omega) (by omega) _ rfl

theorem LevelReaders.level_agree (h : LevelReaders expression level chain) (c : Cursor) {k : Nat}
    (hk : 1 ≤ k) (hk' : k ≤ 11) : level k c = levelOf (operandOf read?) k c := by
  induction hlen : c.rest.length using Nat.strongRecOn generalizing c k with
  | _ n ih =>
  subst hlen
  induction k using levels_down with
  | operand k hlt =>
    obtain rfl : k = 11 := by omega
    have hagree : AgreeBelow c.rest.length expression read? := by
      intro c' hc'
      rw [h.top, read?_eq_levelOf]
      exact ih _ hc' c' (Nat.le_refl 1) (by decide) rfl
    rw [h.unary, levelOf_of_lt hlt]
    exact operandOf_agree derives_read? hagree (Nat.le_refl _)
  | level k hle ihk =>
    have hnext := derives_levelOf (derives_operandOf derives_read?) (k + 1)
    rw [h.operands k hk hle, levelOf_of_le hle, levelAbove]
    apply hnext.bind_agree (ihk (by omega) (by omega))
    intro o c' hc'
    cases o with
    | none => rfl
    | some left =>
      have hbelow : ∀ c', c'.rest.length < c.rest.length →
          level (k + 1) c' = levelOf (operandOf read?) (k + 1) c' := by
        intro c' hc'
        exact ih _ hc' c' (by omega) (by omega) rfl
      exact bind_congr_run (h.chain_agree hk hle hbelow hc' left)

end Unique

/-- The reader of expressions is the one that reads level by level. So left of an operator stands
nothing looser than it and right of it only what is tighter, for every mix of operators. -/
theorem reading_by_levels :
    (∀ expression, (∃ level chain, LevelReaders expression level chain) ↔ expression = read?) ∧
    Derives read? (Optional (Leveled 1)) := by
  constructor
  · intro expression
    constructor
    · rintro ⟨level, chain, h⟩
      funext c
      rw [h.top, read?_eq_levelOf]
      exact h.level_agree c (Nat.le_refl 1) (by decide)
    · rintro rfl
      exact ⟨_, _, levelReaders_read?⟩
  · rw [read?_eq_levelOf]
    exact derives_levelOf (derives_operandOf derives_read?) 1

end Expr

end StoragePlan
