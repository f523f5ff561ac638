import StoragePlan.Proofs.Acceptance
import StoragePlan.Proofs.Renumbering

/-!
Two runs of one reader, on some tokens and on the same tokens with more after them. `Follows` starts
from the longer run: where it leaves all that was added, the shorter run answers the same, with the
numbers that it would have handed out itself. So the tokens after a seam matter only to a run that
takes some of them. Where nothing was added the two runs also fail in the same way.

The bounds of loops and of depth differ in the two runs, because each counts its own tokens.
`Follows` therefore speaks of cursors with at most `b` tokens left, and a bound that is not below
`b` does as well as any larger one (`Follows.loop`).
-/

namespace StoragePlan

open Reader Grammar

/-- The cursor `c'` stands before the tokens that `c` stands before and then `more`, and has handed
out `k` more numbers. -/
structure Cursor.Extends (more : List Token) (k : Nat) (c c' : Cursor) : Prop where
  rest : c'.rest = c.rest ++ more
  nextId : c'.nextId = c.nextId + k
  final : more = [] → c'.final = c.final

/-- The cursor `d` is not behind `c`, and in the same file. -/
structure Cursor.Onward (c d : Cursor) : Prop where
  length : d.rest.length ≤ c.rest.length
  final : d.final = c.final

theorem Cursor.Onward.trans {c d e : Cursor} (h : c.Onward d) (h' : d.Onward e) : c.Onward e :=
  ⟨Nat.le_trans h'.length h.length, h'.final.trans h.final⟩

/-- The run of `y` on the longer list is one of `x` on the shorter, unless it takes what was
added. -/
structure Follows (more : List Token) (k b : Nat) {α : Type} (x y : Reader α) (lower : α → α) :
    Prop where
  forward : ∀ c, Ends y c (fun _ d => c.Onward d) (fun _ _ => True)
  run : ∀ c c', c.Extends more k c' → c.rest.length ≤ b →
    Ends y c'
      (fun a d' => more.length ≤ d'.rest.length → ∃ d, x c = .ok (lower a) d ∧ d.Extends more k d')
      (fun e _ => more = [] → ∃ d, x c = .error e d)

theorem Cursor.position_congr {c c' : Cursor} (hrest : c'.rest = c.rest)
    (hfinal : c'.final = c.final) : c'.position = c.position := by
  rw [Cursor.position, Cursor.position, Cursor.peek?, Cursor.peek?, hrest, hfinal]

theorem Cursor.found?_congr {c c' : Cursor} (hrest : c'.rest = c.rest) :
    c'.found? = c.found? := by
  rw [Cursor.found?, Cursor.found?, Cursor.peek?, Cursor.peek?, hrest]

/-- The first token passes a test, if not every first token fails it. -/
theorem exists_pass {test : Token → Bool} {ts : List Token}
    (h : ¬ ∀ t ∈ ts.head?, test t = false) : ∃ t us, ts = t :: us ∧ test t = true := by
  cases ts with
  | nil => exact absurd (fun t ht => by cases ht) h
  | cons t us =>
    refine ⟨t, us, rfl, ?_⟩
    simpa using h

namespace Follows

variable {more : List Token} {k b : Nat} {α β : Type} {x y : Reader α} {l : α → α}
  {f g : α → Reader β} {m : β → β}

theorem mono {b' : Nat} (h : Follows more k b x y l) (hb : b' ≤ b) : Follows more k b' x y l :=
  ⟨h.forward, fun c c' he hc => h.run c c' he (Nat.le_trans hc hb)⟩

theorem congr {x' : Reader α} (h : Follows more k b x y l)
    (hx : ∀ c : Cursor, c.rest.length ≤ b → x' c = x c) : Follows more k b x' y l := by
  refine ⟨h.forward, fun c c' he hc => ?_⟩
  rw [hx c hc]
  exact h.run c c' he hc

theorem pure {a a' : α} (h : a = l a') : Follows more k b (Pure.pure a) (Pure.pure a') l where
  forward _ := Ends.pure ⟨Nat.le_refl _, rfl⟩
  run c _ he _ := Ends.pure fun _ => ⟨c, congrArg (EStateM.Result.ok · c) h, he⟩

theorem fail (p : Position) (e : ParseError) :
    Follows more k b (Reader.fail p e) (Reader.fail p e) l where
  forward _ := Ends.throw trivial
  run c _ _ _ := Ends.throw fun _ => ⟨c, rfl⟩

/-- An error may say what comes next, and where. -/
theorem failHere (cause : Option Lexeme → ParseError) :
    Follows more k b (get >>= fun c => Reader.fail c.position (cause c.found?))
      (get >>= fun c => Reader.fail c.position (cause c.found?)) l where
  forward _ := Ends.bind (Ends.get (Ends.throw trivial))
  run c c' he _ := by
    refine Ends.bind (Ends.get (Ends.throw fun hmore => ⟨c, ?_⟩))
    have hrest : c'.rest = c.rest := by rw [he.rest, hmore, List.append_nil]
    rw [Cursor.position_congr hrest (he.final hmore), Cursor.found?_congr hrest]
    rfl

/-- A run that has taken some of what was added has nothing to follow. -/
theorem ends_of_overrun {d' : Cursor} {done : β → Cursor → Prop} {failed : ParseFault → Prop}
    {z : Reader β} (hz : ∀ c, Ends z c (fun _ d => c.Onward d) (fun _ _ => True))
    (hd : d'.rest.length < more.length) :
    Ends z d' (fun a d => more.length ≤ d.rest.length → done a d)
      (fun e _ => more = [] → failed e) := by
  refine (hz d').mono ?_ ?_
  · intro a d hforward hmore
    have hle := hforward.length
    omega
  · rintro e d - rfl
    cases hd

/-- Two steps in turn, where the first leaves at most `r a` tokens to the second. -/
theorem seq {r : α → Nat} (hx : Follows more k b x y l)
    (hr : ∀ c a d, y c = .ok a d → d.rest.length + (b - r a) ≤ c.rest.length)
    (hf : ∀ a, Follows more k (r a) (f (l a)) (g a) m) :
    Follows more k b (x >>= f) (y >>= g) m where
  forward c := by
    refine (hx.forward c).seq (fun _ _ h => h) ?_
    intro a d hd
    exact ((hf a).forward d).mono (fun _ _ h => hd.trans h) (fun _ _ h => h)
  run c c' he hc := by
    refine Ends.bind (((hx.run c c' he hc).and Ends.run).mono ?_ ?_)
    · rintro a d' ⟨hrun, hy⟩
      by_cases hd : more.length ≤ d'.rest.length
      · obtain ⟨d, hxc, hed⟩ := hrun hd
        have hle := hr c' a d' hy
        rw [hed.rest, he.rest, List.length_append, List.length_append] at hle
        rw [bind_of_ok hxc]
        exact (hf a).run d d' hed (by omega)
      · exact ends_of_overrun (hf a).forward (Nat.not_le.mp hd)
    · rintro e d' ⟨herror, _⟩ hmore
      obtain ⟨d, hxc⟩ := herror hmore
      exact ⟨d, bind_of_error hxc⟩

theorem bind (hx : Follows more k b x y l) (hf : ∀ a, Follows more k b (f (l a)) (g a) m) :
    Follows more k b (x >>= f) (y >>= g) m := by
  refine hx.seq (r := fun _ => b) (fun c a d hy => ?_) hf
  rw [Nat.sub_self, Nat.add_zero]
  exact ((hx.forward c).ok hy).length

theorem map {p : α → β} (hx : Follows more k b x y l) (h : ∀ a, p (l a) = m (p a)) :
    Follows more k b (p <$> x) (p <$> y) m := by
  rw [map_eq_pure_bind, map_eq_pure_bind]
  exact hx.bind fun a => .pure (h a)

/-- A step that may find nothing. -/
theorem optional {x y : Reader (Option α)} {f g : Option α → Reader β}
    (hx : Follows more k b x y (Option.map l)) (hnone : Follows more k b (f none) (g none) m)
    (hsome : ∀ a, Follows more k b (f (some (l a))) (g (some a)) m) :
    Follows more k b (x >>= f) (y >>= g) m := by
  refine hx.bind fun o => ?_
  cases o with
  | none => exact hnone
  | some a => exact hsome a

theorem pureBind {a a' : α} (h : Follows more k b (f a) (g a') m) :
    Follows more k b (Pure.pure a >>= f) (Pure.pure a' >>= g) m := h

/-- An optional part that is there. -/
theorem someBind {f g : Option α → Reader β} (hx : Follows more k b x y l)
    (hf : ∀ a, Follows more k b (f (some (l a))) (g (some a)) m) :
    Follows more k b (some <$> x >>= f) (some <$> y >>= g) m := by
  rw [bind_map_left, bind_map_left]
  exact hx.bind hf

/-- A step that may find nothing, and takes a token if it finds something. -/
theorem taking {x y : Reader (Option α)} {f g : Option α → Reader β} {P : List Token → α → Prop}
    (hx : Follows more k b x y (Option.map l)) (hy : Derives y (Optional P))
    (hP : ∀ ts a, P ts a → ts ≠ []) (hnone : Follows more k b (f none) (g none) m)
    (hsome : ∀ a, Follows more k (b - 1) (f (some (l a))) (g (some a)) m) :
    Follows more k b (x >>= f) (y >>= g) m := by
  refine hx.seq (r := fun o => b - o.toList.length) (fun c o d ho => ?_) fun o => ?_
  · obtain ⟨read, hread, hP'⟩ := (hy c).ok ho
    rw [hread, List.length_append]
    cases o with
    | none =>
      simp only [Option.toList, List.length_nil]
      omega
    | some a =>
      have hpos := List.length_pos_iff.mpr (hP read a hP')
      simp only [Option.toList, List.length_singleton]
      omega
  · cases o with
    | none => exact hnone
    | some a => exact hsome a

/-- A token that is taken leaves one less. -/
theorem nextIf {test : Token → Bool} {f g : Option Token → Reader β}
    (hnone : Follows more k b (f none) (g none) m)
    (hsome : ∀ t, Follows more k (b - 1) (f (some t)) (g (some t)) m) :
    Follows more k b (nextIf? test >>= f) (nextIf? test >>= g) m where
  forward c := by
    unfold Ends
    by_cases hhead : ∀ t ∈ c.rest.head?, test t = false
    · rw [bind_of_ok (declines_nextIf hhead c rfl)]
      exact hnone.forward c
    · obtain ⟨t, ts, hrest, ht⟩ := exists_pass hhead
      rw [bind_of_ok (nextIf?_of_pass hrest ht)]
      refine ((hsome t).forward _).mono (fun _ d h => ⟨?_, h.final⟩) (fun _ _ h => h)
      rw [hrest, List.length_cons]
      exact Nat.le_succ_of_le h.length
  run c c' he hc := by
    by_cases hhead : ∀ t ∈ c'.rest.head?, test t = false
    · have hshort : ∀ t ∈ c.rest.head?, test t = false := by
        intro t ht
        obtain ⟨ts, hts⟩ := List.head?_eq_some_iff.mp ht
        exact hhead t (by rw [he.rest, hts]; rfl)
      unfold Ends
      rw [bind_of_ok (declines_nextIf hhead c' rfl), bind_of_ok (declines_nextIf hshort c rfl)]
      exact hnone.run c c' he hc
    · obtain ⟨t, ts, hrest, ht⟩ := exists_pass hhead
      unfold Ends
      rw [bind_of_ok (nextIf?_of_pass hrest ht)]
      rw [he.rest] at hrest
      cases hc₀ : c.rest with
      | nil =>
        -- the token is one of those that were added
        rw [hc₀, List.nil_append] at hrest
        refine ends_of_overrun (hsome t).forward ?_
        rw [hrest, List.length_cons]
        exact Nat.lt_succ_self _
      | cons u us =>
        rw [hc₀, List.cons_append] at hrest
        obtain ⟨rfl, rfl⟩ := List.cons.inj hrest
        rw [bind_of_ok (nextIf?_of_pass hc₀ ht)]
        refine (hsome u).run _ _ ⟨rfl, he.nextId, he.final⟩ ?_
        rw [hc₀, List.length_cons] at hc
        exact Nat.le_sub_one_of_lt hc

theorem require {w : Lexeme} {f g : Token → Reader β}
    (h : ∀ t, Follows more k b (f t) (g t) m) :
    Follows more k b (Reader.require w >>= f) (Reader.require w >>= g) m := by
  have hrequire : Follows more k b (Reader.require w) (Reader.require w) id :=
    .nextIf (.failHere (.expectedButFound _)) fun t => .pure rfl
  exact hrequire.bind h

/-- The number that is handed out. -/
theorem newId {f g : Nat → Reader β} (h : ∀ id, Follows more k b (f (id - k)) (g id) m) :
    Follows more k b (Reader.newId >>= f) (Reader.newId >>= g) m where
  forward c := ((h c.nextId).forward { c with nextId := c.nextId + 1 }).mono
    (fun _ _ h => ⟨h.length, h.final⟩) (fun _ _ h => h)
  run c c' he hc := by
    have hid : c'.nextId - k = c.nextId := by rw [he.nextId, Nat.add_sub_cancel]
    have hnext : ({ c with nextId := c.nextId + 1 } : Cursor).Extends more k
        { c' with nextId := c'.nextId + 1 } := ⟨he.rest, by simp [he.nextId]; omega, he.final⟩
    have hrun := (h c'.nextId).run _ _ hnext hc
    rw [hid] at hrun
    exact hrun

/-! ### Bounds -/

/-- A bound that is the number of tokens left. -/
theorem bounded {X Y : Nat → Reader β}
    (h : ∀ b' n n', b' ≤ b → b' ≤ n → n ≤ n' → Follows more k b' (X n) (Y n') m) :
    Follows more k b (get >>= fun c => X c.rest.length) (get >>= fun c => Y c.rest.length) m where
  forward c := (h 0 0 c.rest.length (Nat.zero_le _) (Nat.zero_le _) (Nat.zero_le _)).forward c
  run c c' he hc := by
    have hle : c.rest.length ≤ c'.rest.length := by
      rw [he.rest, List.length_append]
      exact Nat.le_add_right _ _
    exact (h _ _ _ hc (Nat.le_refl _) hle).run c c' he (Nat.le_refl _)

theorem boundedBind {L M : Nat → Reader α}
    (h : ∀ b' n n', b' ≤ b → b' ≤ n → n ≤ n' → Follows more k b' (L n) (M n') l)
    (hf : ∀ a, Follows more k b (f (l a)) (g a) m) :
    Follows more k b (get >>= fun c => L c.rest.length >>= f)
      (get >>= fun c => M c.rest.length >>= g) m :=
  bounded (X := fun n => L n >>= f) (Y := fun n => M n >>= g) fun b' n n' hb hn hn' =>
    (h b' n n' hb hn hn').bind fun a => (hf a).mono hb

/-- A choice by what comes next. The two runs may choose differently only where the seam is in
sight; then what the shorter run would have done on the other way is the same, or fails. -/
theorem lookBounded {p : Cursor → Bool} {X Y : Nat → Reader α} (hx : Follows more k b x y l)
    (hX : ∀ b' n n', b' ≤ b → b' ≤ n → n ≤ n' → Follows more k b' (X n) (Y n') l)
    (hsight : ∀ c c', c.Extends more k c' → p c ≠ p c' → more ≠ [] ∧
      (x c = X c.rest.length c ∨ p c' = true ∧ ∃ e d, x c = .error e d)) :
    Follows more k b (get >>= fun c => if p c = true then x else X c.rest.length)
      (get >>= fun c => if p c = true then y else Y c.rest.length) l where
  forward c := by
    refine Ends.bind (Ends.get ?_)
    split
    · exact hx.forward c
    · exact (bounded hX).forward c
  run c c' he hc := by
    have hX' := (bounded hX).run c c' he hc
    refine Ends.bind (Ends.get ?_)
    rw [bind_get]
    by_cases hp : p c = p c'
    · rw [hp]
      split
      · exact hx.run c c' he hc
      · exact hX'
    · obtain ⟨hmore, hsame⟩ := hsight c c' he hp
      cases hp' : p c' with
      | false =>
        have hpc : p c = true := by simpa [hp'] using hp
        obtain hsame | ⟨h, -⟩ := hsame
        · simp only [hpc, if_true, hsame]
          exact hX'
        · rw [hp'] at h
          cases h
      | true =>
        have hpc : p c = false := by simpa [hp'] using hp
        simp only [hpc]
        refine (hx.run c c' he hc).mono ?_ fun _ _ _ h => absurd h hmore
        intro a d' hrun hd
        obtain ⟨d, hxc, hed⟩ := hrun hd
        obtain hsame | ⟨-, e, d₀, herror⟩ := hsame
        · exact ⟨d, hsame.symm.trans hxc, hed⟩
        · cases herror.symm.trans hxc

theorem look {p : Cursor → Bool} {x' y' : Reader α} (hx : Follows more k b x y l)
    (hx' : Follows more k b x' y' l)
    (hsight : ∀ c c', c.Extends more k c' → p c ≠ p c' → more ≠ [] ∧
      (x c = x' c ∨ p c' = true ∧ ∃ e d, x c = .error e d)) :
    Follows more k b (get >>= fun c => if p c = true then x else x')
      (get >>= fun c => if p c = true then y else y') l :=
  lookBounded (X := fun _ => x') (Y := fun _ => y') hx (fun _ _ _ hb _ _ => hx'.mono hb) hsight

/-- A loop that takes a token each time it goes round, and does nothing at the end of the tokens. -/
theorem loop {σ : Type} {L M : Nat → σ → Reader α} {s : σ → σ} {b₀ : Nat}
    (hzero : ∀ b, b ≤ b₀ → ∀ i, Follows more k b (L 0 (s i)) (M 0 i) l)
    (hend : ∀ i index final id, L 0 i ⟨index, [], final, id⟩ = L 1 i ⟨index, [], final, id⟩)
    (hstep : ∀ b, b ≤ b₀ → ∀ n n', (∀ i, Follows more k (b - 1) (L n (s i)) (M n' i) l) →
      ∀ i, Follows more k b (L (n + 1) (s i)) (M (n' + 1) i) l)
    {n n' : Nat} (hb : b ≤ b₀) (hn : b ≤ n) (hn' : n ≤ n') (i : σ) :
    Follows more k b (L n (s i)) (M n' i) l := by
  induction n' generalizing b n i with
  | zero =>
    obtain rfl := Nat.le_zero.mp hn'
    exact hzero b hb i
  | succ n' ih =>
    cases n with
    | zero =>
      -- The shorter run has no round left and no token, so one round more is the same.
      refine (hstep b hb 0 n' (fun j => ih ?_ ?_ (Nat.zero_le _) j) i).congr fun c hc => ?_
      · omega
      · omega
      · have hnil : c.rest = [] := List.length_eq_zero_iff.mp (by omega)
        obtain ⟨index, rest, final, id⟩ := c
        cases hnil
        exact hend (s i) index final id
    | succ n =>
      refine hstep b hb n n' (fun j => ih ?_ ?_ (Nat.le_of_succ_le_succ hn') j) i
      · omega
      · omega

/-- A loop that carries nothing from one round to the next. -/
theorem rounds {L M : Nat → Reader α} {b₀ : Nat}
    (hzero : ∀ b, b ≤ b₀ → Follows more k b (L 0) (M 0) l)
    (hend : ∀ index final id, L 0 ⟨index, [], final, id⟩ = L 1 ⟨index, [], final, id⟩)
    (hstep : ∀ b, b ≤ b₀ → ∀ n n', Follows more k (b - 1) (L n) (M n') l →
      Follows more k b (L (n + 1)) (M (n' + 1)) l)
    {n n' : Nat} (hb : b ≤ b₀) (hn : b ≤ n) (hn' : n ≤ n') : Follows more k b (L n) (M n') l :=
  loop (L := fun n (_ : Unit) => L n) (M := fun n (_ : Unit) => M n) (s := fun i => i)
    (fun b hb _ => hzero b hb) (fun _ => hend)
    (fun b hb n n' ih _ => hstep b hb n n' (ih ())) hb hn hn' ()

end Follows

/-! ### Expressions -/

namespace Expr

/-- The expression with numbers that are `k` less. -/
abbrev lower (k : Nat) : Expr → Expr := renumber (· - k)

/-- The expressions with numbers that are `k` less. -/
abbrev lowerAll (k : Nat) : List Expr → List Expr := renumberAll (· - k)

variable {more : List Token} {k b : Nat} {sub sub' : Reader (Option Expr)}

theorem follows_required (hs : Follows more k b sub sub' (Option.map (lower k))) (after : Token) :
    Follows more k b (required sub after) (required sub' after) (lower k) := by
  exact hs.optional (.failHere fun _ => _) fun e => .pure rfl

theorem follows_arguments (hs : Follows more k b sub sub' (Option.map (lower k)))
    (hd : Declines sub []) {b' n n' : Nat} (hb : b' ≤ b) (hn : b' ≤ n) (hn' : n ≤ n') :
    Follows more k b' (arguments sub n) (arguments sub' n') (lowerAll k) := by
  refine Follows.rounds (L := arguments sub) (M := arguments sub') ?_ ?_ ?_ hb hn hn'
  · intro b' _
    exact .pure rfl
  · intro index final id
    rw [arguments, arguments, bind_of_ok (hd _ rfl)]
  · intro b' hb n n' ih
    refine (hs.mono hb).optional (.pure rfl) fun e => .nextIf (.pure rfl) fun comma => ?_
    exact ih.bind fun es => .pure rfl

theorem follows_callOf (hs : Follows more k (b - 1) sub sub' (Option.map (lower k)))
    (hd : Declines sub []) :
    Follows more k b (callOf sub) (callOf sub') (Option.map (lower k)) := by
  refine .nextIf (.pure rfl) fun callee => .require fun paren => ?_
  refine .boundedBind (L := arguments sub) (M := arguments sub')
    (fun b' n n' hb hn hn' => follows_arguments hs hd hb hn hn') fun args => ?_
  exact .require fun close => .newId fun id => .pure rfl

theorem seesAll_pair {c : Cursor} {v w : Lexeme} : c.seesAll [v, w] = true ↔
    ∃ t u ts, c.rest = t :: u :: ts ∧ t.is v = true ∧ u.is w = true := by
  obtain ⟨index, rest, final, nextId⟩ := c
  match rest with
  | [] => simp [Cursor.seesAll, Cursor.seesAll.agree]
  | [t] => simp [Cursor.seesAll, Cursor.seesAll.agree]
  | t :: u :: ts =>
    simp only [Cursor.seesAll, Cursor.seesAll.agree, Bool.and_true, Bool.and_eq_true]
    constructor
    · rintro ⟨ht, hu⟩
      exact ⟨t, u, ts, rfl, ht, hu⟩
    · rintro ⟨t', u', ts', heq, ht, hu⟩
      cases heq
      exact ⟨ht, hu⟩

/-- Where a name ends the tokens there is no call. -/
theorem callOf_of_single {c : Cursor} {t : Token} (hc : c.rest = [t])
    (ht : t.is (.name "") = true) : ∃ e d, callOf sub c = .error e d := by
  have hname : callOf sub c = _ := bind_of_ok (accept?_of_is hc ht)
  exact ⟨_, _, hname.trans (bind_of_error rfl)⟩

/-- If the two runs see a call in one case only, the tokens end right before it or after its
name. -/
theorem callOf_in_sight {c c' : Cursor} (he : c.Extends more k c')
    (hp : c.seesAll [.name "", .mark .leftParen] ≠ c'.seesAll [.name "", .mark .leftParen]) :
    more ≠ [] ∧ (c.rest = [] ∨ c'.seesAll [.name "", .mark .leftParen] = true ∧
      ∃ e d, callOf sub c = .error e d) := by
  have hlonger : c.seesAll [.name "", .mark .leftParen] = true →
      c'.seesAll [.name "", .mark .leftParen] = true := by
    rw [seesAll_pair, seesAll_pair]
    rintro ⟨t, u, ts, hrest, ht, hu⟩
    exact ⟨t, u, ts ++ more, by rw [he.rest, hrest]; rfl, ht, hu⟩
  have hc' : c'.seesAll [.name "", .mark .leftParen] = true := by
    cases h : c.seesAll [.name "", .mark .leftParen] with
    | true => exact hlonger h
    | false => simpa [h] using hp
  obtain ⟨t, u, ts, hrest, ht, hu⟩ := seesAll_pair.mp hc'
  rw [he.rest] at hrest
  have hshort : ∀ us, c.rest ≠ t :: u :: us := fun us h =>
    hp ((seesAll_pair.mpr ⟨t, u, us, h, ht, hu⟩).trans hc'.symm)
  constructor
  · rintro rfl
    exact hshort ts (by simpa using hrest)
  · match h : c.rest, hrest with
    | [], _ => exact .inl rfl
    | [a], hrest =>
      obtain ⟨rfl, -⟩ := List.cons.inj hrest
      exact .inr ⟨hc', callOf_of_single h ht⟩
    | a :: a' :: us, hrest =>
      simp only [List.cons_append, List.cons.injEq] at hrest
      obtain ⟨rfl, rfl, -⟩ := hrest
      exact absurd h (hshort us)

/-- Two tokens are looked at; where only one is left, it may be the name of a call that goes on in
what was added. -/
theorem follows_primary (hs : Follows more k (b - 1) sub sub' (Option.map (lower k)))
    (hd : Declines sub []) :
    Follows more k b (primary sub) (primary sub') (Option.map (lower k)) := by
  refine .nextIf ?_ fun paren => ?_
  · refine .look (p := fun c => c.seesAll [.name "", .mark .leftParen]) (follows_callOf hs hd) ?_
      fun c c' he hp => ?_
    · refine .nextIf (.nextIf (.pure rfl) fun t => ?_) fun t => .newId fun id => .pure rfl
      exact .newId fun id => .pure rfl
    · obtain ⟨hmore, hnil | herror⟩ := callOf_in_sight he hp
      · obtain ⟨index, rest, final, nextId⟩ := c
        cases hnil
        exact ⟨hmore, .inl rfl⟩
      · exact ⟨hmore, .inr herror⟩
  · exact (follows_required hs paren).bind fun e => .require fun close => .pure rfl

theorem follows_suffixes (hs : Follows more k (b - 1) sub sub' (Option.map (lower k)))
    {b' n n' : Nat} (hb : b' ≤ b) (hn : b' ≤ n) (hn' : n ≤ n') (e : Expr) :
    Follows more k b' (suffixes sub n (e.lower k)) (suffixes sub' n' e) (lower k) := by
  refine Follows.loop (L := suffixes sub) (M := suffixes sub') (s := lower k) ?_ ?_ ?_ hb hn hn' e
  · intro b' _ e
    exact .pure rfl
  · exact fun _ _ _ _ => rfl
  · intro b' hb n n' ih e
    refine .nextIf (.nextIf (.pure rfl) fun bracket => ?_) fun op => ?_
    · have hsub := hs.mono (Nat.sub_le_sub_right hb 1)
      refine (follows_required hsub bracket).bind fun i => .require fun close => ?_
      exact .newId fun id => ih (.index id e bracket i)
    · refine .nextIf (.fail _ _) fun field => .newId fun id => .newId fun id' => ?_
      exact (ih (.binary id' e op (.ident id field))).mono (Nat.sub_le _ _)

theorem follows_suffixed (hs : Follows more k (b - 1) sub sub' (Option.map (lower k)))
    (hd : Declines sub []) :
    Follows more k b (suffixed sub) (suffixed sub') (Option.map (lower k)) := by
  refine (follows_primary hs hd).optional (.pure rfl) fun e => ?_
  refine .boundedBind (L := fun n => suffixes sub n (e.lower k)) (M := fun n => suffixes sub' n e)
    (fun b' n n' hb hn hn' => follows_suffixes hs hb hn hn' e) fun e' => ?_
  exact .pure rfl

theorem applyUnary_of_not {op : Token} {operand : Expr} (h : ¬ IsNegatable op operand) :
    applyUnary op operand = (do return .unary (← newId) op operand) := by
  unfold applyUnary
  split
  · next id v p hop => exact absurd ⟨hop, id, v, p, rfl⟩ h
  · rfl

theorem follows_applyUnary (op : Token) (operand : Expr) :
    Follows more k b (applyUnary op (operand.lower k)) (applyUnary op operand) (lower k) := by
  by_cases h : IsNegatable op operand
  · obtain ⟨hop, id, v, p, rfl⟩ := h
    unfold applyUnary
    rw [hop]
    exact .pure rfl
  · have hlower : ¬ IsNegatable op (operand.lower k) := by
      rintro ⟨hop, id, v, p, heq⟩
      cases operand with
      | literal id' t =>
        obtain ⟨-, rfl⟩ := Expr.literal.inj heq
        exact h ⟨hop, id', v, p, rfl⟩
      | _ => cases heq
    rw [applyUnary_of_not h, applyUnary_of_not hlower]
    exact .newId fun id => .pure rfl

theorem follows_unaryOf (hs : Follows more k (b - 1) sub sub' (Option.map (lower k)))
    (hd : Declines sub []) {b' n n' : Nat} (hb : b' ≤ b) (hn : b' ≤ n) (hn' : n ≤ n') :
    Follows more k b' (unaryOf sub n) (unaryOf sub' n') (Option.map (lower k)) := by
  have hlast : ∀ b', b' ≤ b →
      Follows more k b' (suffixed sub) (suffixed sub') (Option.map (lower k)) :=
    fun b' hb => (follows_suffixed hs hd).mono hb
  refine Follows.rounds (L := unaryOf sub) (M := unaryOf sub') hlast ?_ ?_ hb hn hn'
  · exact fun _ _ _ => rfl
  · intro b' hb n n' ih
    refine .nextIf (hlast b' hb) fun op => ih.optional (.fail _ _) fun operand => ?_
    exact (follows_applyUnary op operand).bind fun e => .pure rfl

theorem follows_operandOf (hs : Follows more k (b - 1) sub sub' (Option.map (lower k)))
    (hd : Declines sub []) :
    Follows more k b (operandOf sub) (operandOf sub') (Option.map (lower k)) :=
  .bounded (X := unaryOf sub) (Y := unaryOf sub') fun _ _ _ => follows_unaryOf hs hd

theorem follows_climb {operand operand' : Reader (Option Expr)}
    (ho : Follows more k b operand operand' (Option.map (lower k))) {b' n n' : Nat} (hb : b' ≤ b)
    (hn : b' ≤ n) (hn' : n ≤ n') (least : Nat) (left : Expr) :
    Follows more k b' (climb operand n least (left.lower k)) (climb operand' n' least left)
      (lower k) := by
  refine Follows.loop (L := fun n (i : Nat × Expr) => climb operand n i.1 i.2)
    (M := fun n i => climb operand' n i.1 i.2) (s := Prod.map (fun i => i) (lower k)) ?_ ?_ ?_ hb hn
    hn' (least, left)
  · intro b' _ i
    exact .pure rfl
  · exact fun _ _ _ _ => rfl
  · intro b' hb n n' ih i
    refine .nextIf (.pure rfl) fun op => ?_
    refine (ho.mono (Nat.le_trans (Nat.sub_le _ _) hb)).optional (.fail _ _) fun first => ?_
    refine (ih (op.lexeme.level?.getD 0 + 1, first)).bind fun right => .newId fun id => ?_
    exact ih (i.1, .binary id i.2 op right)

theorem follows_binaryOf (hs : Follows more k (b - 1) sub sub' (Option.map (lower k)))
    (hd : Declines sub []) (least : Nat) :
    Follows more k b (binaryOf sub least) (binaryOf sub' least) (Option.map (lower k)) := by
  have ho := follows_operandOf hs hd
  refine ho.optional (.pure rfl) fun first => ?_
  refine .boundedBind (L := fun n => climb (operandOf sub) n least (first.lower k))
    (M := fun n => climb (operandOf sub') n least first)
    (fun b' n n' hb hn hn' => follows_climb ho hb hn hn' least first) fun e => ?_
  exact .pure rfl

theorem declines_nested (depth : Nat) : Declines (nested depth) [] := by
  intro c hc
  obtain ⟨index, rest, final, nextId⟩ := c
  cases hc
  cases depth <;> rfl

theorem follows_nested {n n' : Nat} (hn : b ≤ n) (hn' : n ≤ n') :
    Follows more k b (nested n) (nested n') (Option.map (lower k)) := by
  refine Follows.rounds (L := nested) (M := nested) ?_ ?_ ?_ (Nat.le_refl b) hn hn'
  · intro b' _
    exact .pure rfl
  · exact fun _ _ _ => rfl
  · intro b' _ n n' ih
    exact follows_binaryOf ih (declines_nested n) 1

theorem follows_read? : Follows more k b read? read? (Option.map (lower k)) :=
  .bounded (X := nested) (Y := nested) fun _ _ _ _ => follows_nested

theorem follows_readAfter (after : Token) :
    Follows more k b (readAfter after) (readAfter after) (lower k) :=
  follows_required follows_read? after

end Expr

end StoragePlan
