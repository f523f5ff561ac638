import StoragePlan.Project.Basic
import StoragePlan.Proofs.Denotation

/-!
The frames of a file that is right are those that its syntax gives, one for each function in the order
of the text. Every local is in its frame once, and the frame is at least as large as the stack is at
any moment while the function is checked.
-/

namespace StoragePlan

namespace Check

variable {s s' s₂ s₃ : Session} {d : FunctionDef} {r : String × Option ValueType}

/-! ### Functions -/

theorem parameters_lays (fs : List Field) (hb : s.body.isSome = true) :
    Ends (fs.forM pushParameter) s
      (fun _ s' => Lays (fs.map (·.element s.memory.udts)).reverse [] [] (fs.map (·.name)) s s')
      (fun _ _ => True) := by
  induction fs generalizing s with
  | nil => exact Ends.pure (.refl s)
  | cons f fs ih =>
    refine (pushParameter_ends f hb).seq (fun _ _ _ => trivial) ?_
    rintro _ s₁ ⟨b, hg, hv⟩
    have h₁ : Lays [f.element s.memory.udts] [] [] [f.name] s s₁ := .of_values hg hv hb
    refine (ih (hg.isSome_body.trans hb)).mono (fun _ s₂ h₂ => ?_) (fun _ _ _ => trivial)
    rw [h₁.udts, List.nil_append] at h₂
    rw [List.map_cons, List.reverse_cons]
    exact h₁.trans h₂

/-- At the end of its body a function has its own elements on the stack and those of its inner blocks
in the frame. -/
theorem body_lays (hf : s.memory.Fits) (hparams : entering d d.params s = .ok r s₂)
    (hbody : stmts d.body.body s₂ = .ok () s₃) :
    nameOf d.name = .ok r.1 ∧ s₃.frames = s.frames ∧ s₃.memory.Fits ∧
      Lays (d.own s.memory.udts).reverse (Stmt.udtsAll d.body.body)
        (Stmt.insideAll s.memory.udts d.body.body) d.locals
        (opened (entered ⟨r.1, r.2, []⟩ s)) s₃ := by
  have hends : Ends (entering d d.params) s
      (fun r s' => nameOf d.name = .ok r.1 ∧
        Lays (d.params.map (·.element s.memory.udts)).reverse [] [] (d.params.map (·.name))
          (opened (entered ⟨r.1, r.2, []⟩ s)) s') (fun _ _ => True) :=
    entering_ends fun id returns hid =>
      (parameters_lays d.params rfl).mono (fun _ _ h => ⟨hid, h⟩) (fun _ _ _ => trivial)
  obtain ⟨hid, h₂⟩ := hends.ok hparams
  obtain ⟨bs, hg₂⟩ := grown_of_entering hparams
  have hb₂ : s₂.body.isSome = true := hg₂.isSome_body
  have hf₂ : s₂.memory.Fits := hg₂.fits hf
  obtain ⟨bs', hg₃⟩ := (grows_stmts d.body.body s₂ hb₂).ok hbody
  have h₃ := (stmts_lays d.body.body s₂ hb₂ hf₂).ok hbody
  have hudts : s₂.memory.udts = s.memory.udts := h₂.udts
  rw [hudts] at h₃
  refine ⟨hid, hg₃.frames.trans hg₂.frames, hg₃.fits hf₂, ?_⟩
  have h := h₂.trans h₃
  rwa [List.append_nil, List.nil_append, ← List.reverse_append] at h

/-- The frame that the syntax of a function gives holds as many bytes as its stack and frame do at the
end of its body. -/
theorem weight_eq_frame (hs : s.memory.stack = []) (hparams : entering d d.params s = .ok r s₂)
    (hbody : stmts d.body.body s₂ = .ok () s₃) :
    weight s₃ = bytesOf ((d.frame s.memory.udts).elements.map (·.element)) := by
  obtain ⟨_, _, _, h⟩ := body_lays (by simp [Tracker.Fits, hs]) hparams hbody
  simp [weight, h.memory, h.body, FunctionDef.frame, opened, entered, Tracker.openScope,
    Tracker.grow, Body.release, hs, Nat.add_comm]

/-- What the check of a function leaves: its frame and nothing else. -/
structure Framed (d : FunctionDef) (s s' : Session) : Prop where
  frames : s'.frames = s.frames ++ [d.frame s.memory.udts]
  memory : s'.memory = s.memory
  body : s'.body = none
  names : ((d.frame s.memory.udts).elements.map (·.element.id)).Perm (d.locals.map (·.name?))

theorem functionBody_framed (hf : s.memory.Fits) (hrun : functionBody d s = .ok () s') :
    Framed d s s' := by
  rw [functionBody_eq] at hrun
  obtain ⟨r, s₂, hparams, hrun⟩ := bind_eq_ok hrun
  obtain ⟨_, s₃, hbody, hrun⟩ := bind_eq_ok hrun
  obtain ⟨hid, hframes, hfits, h⟩ := body_lays hf hparams hbody
  unfold leaving at hrun
  split at hrun
  · cases hrun
  · obtain ⟨_, s₄, hclose, hrun⟩ := bind_eq_ok hrun
    cases hrun
    have hframes₄ : s₄.frames = s₃.frames := by cases hclose; rfl
    have hclosed := h.close hfits hclose
    have hframe : d.frame s.memory.udts =
        ⟨r.1, Stmt.insideAll s.memory.udts d.body.body ++ laidOut (d.own s.memory.udts)⟩ := by
      rw [FunctionDef.frame, nameOf_eq_ok hid, Option.getD_some]
    have hbody₄ : s₄.body = some ⟨r.1, r.2,
        Stmt.insideAll s.memory.udts d.body.body ++ laidOut (d.own s.memory.udts)⟩ := hclosed.body
    exact {
      frames := by
        simp only [hframes₄, hframes, hbody₄, hframe, Option.map_some, Option.toList_some]
      memory := hclosed.memory.trans (Tracker.grow_nil _ _)
      body := rfl
      names := by
        rw [hframe]
        simpa using hclosed.names }

/-! ### Files -/

/-- The check of a function can begin, among these types and with an empty stack. -/
structure Begins (us : List Udt) (s : Session) : Prop where
  udts : s.memory.udts = us
  stack : s.memory.stack = []
  body : s.body = none

variable {us : List Udt}

theorem Begins.fits (h : Begins us s) : s.memory.Fits := by simp [Tracker.Fits, h.stack]

/-- A global changes neither types nor stack. -/
theorem Begins.grown {b : Binding} {e : Element} (h : Begins us s) (hg : Grown [b] s s')
    (he : b.holding = .element e) : Begins us s' where
  udts := by simp [hg.memory, Tracker.gain, Binding.udt?, he, h.udts]
  stack := by simp [hg.memory, Tracker.gain, h.body, h.stack]
  body := by
    obtain ⟨ps, hps⟩ := hg.body
    simp [hps, h.body]

theorem item_begins (i : Item) (h : Begins us s) :
    Ends (item i) s (fun _ s' => Begins us s' ∧ s'.frames = s.frames) (fun _ _ => True) := by
  refine (item_stores i h.body).mono ?_ (fun _ _ _ => trivial)
  rintro _ s' (rfl | ⟨b, e, hg, he, _⟩)
  · exact ⟨h, rfl⟩
  · exact ⟨h.grown hg he, hg.frames⟩

theorem items_begins (is : List Item) (h : Begins us s) :
    Ends (is.forM item) s (fun _ s' => Begins us s' ∧ s'.frames = s.frames) (fun _ _ => True) := by
  induction is generalizing s with
  | nil => exact Ends.pure ⟨h, rfl⟩
  | cons i is ih =>
    refine (item_begins i h).seq (fun _ _ _ => trivial) ?_
    rintro _ s₁ ⟨h₁, hframes⟩
    exact (ih h₁).mono (fun _ _ h₂ => ⟨h₂.1, h₂.2.trans hframes⟩) (fun _ _ _ => trivial)

theorem types_begins (ds : List TypeDef) (h : Begins us s) :
    Ends (types ds) s
      (fun _ s' => Begins ((ds.map (·.udt)).reverse ++ us) s' ∧ s'.frames = s.frames)
      (fun _ _ => True) := by
  have hb : s.body.isSome = false := by simp [h.body]
  refine ((types_shaped ds).and (grows_types false ds s hb)).mono ?_ (fun _ _ _ => trivial)
  rintro _ s' ⟨hshaped, bs, hg⟩
  refine ⟨⟨?_, ?_, hshaped.body.trans h.body⟩, hg.frames⟩
  · rw [hshaped.memory, Tracker.udts_grow, h.udts]
  · rw [hshaped.memory, hb, Tracker.stack_grow_false, h.stack]

/-- What is there when the bodies of a file are checked. -/
theorem bodies_begin {f : SourceFile} (h : Begins us s) {u u' : Unit} {s₁ s₂ : Session}
    (htypes : types f.types s = .ok u s₁) (hitems : f.items.forM item s₁ = .ok u' s₂) :
    Begins ((f.types.map (·.udt)).reverse ++ us) s₂ ∧ s₂.frames = s.frames := by
  obtain ⟨h₁, hframes₁⟩ := (types_begins f.types h).ok htypes
  obtain ⟨h₂, hframes₂⟩ := (items_begins f.items h₁).ok hitems
  exact ⟨h₂, hframes₂.trans hframes₁⟩

theorem Framed.begins (h : Framed d s s') (hb : Begins us s) : Begins us s' :=
  ⟨h.memory ▸ hb.udts, h.memory ▸ hb.stack, h.body⟩

theorem functionBodies_framed (ds : List FunctionDef) (hb : Begins us s)
    (hrun : ds.forM functionBody s = .ok () s') :
    s'.frames = s.frames ++ ds.map (·.frame us) ∧
      ∀ d ∈ ds, ((d.frame us).elements.map (·.element.id)).Perm (d.locals.map (·.name?)) := by
  induction ds generalizing s with
  | nil =>
    cases hrun
    simp
  | cons d ds ih =>
    obtain ⟨_, s₁, hfirst, hrest⟩ := bind_eq_ok hrun
    have h₁ := functionBody_framed hb.fits hfirst
    obtain ⟨hframes, hnames⟩ := ih (h₁.begins hb) hrest
    have hnames₁ := h₁.names
    rw [hb.udts] at hnames₁
    refine ⟨?_, List.forall_mem_cons.mpr ⟨hnames₁, hnames⟩⟩
    rw [hframes, h₁.frames, hb.udts, List.map_cons, List.append_assoc, List.singleton_append]

theorem file_framed {f : SourceFile} (hb : Begins us s) (hrun : file f s = .ok () s') :
    s'.frames = s.frames ++ f.functions.map (·.frame ((f.types.map (·.udt)).reverse ++ us)) ∧
      ∀ d ∈ f.functions,
        ((d.frame ((f.types.map (·.udt)).reverse ++ us)).elements.map (·.element.id)).Perm
          (d.locals.map (·.name?)) := by
  obtain ⟨_, s₁, htypes, hrun⟩ := bind_eq_ok hrun
  obtain ⟨_, s₂, hitems, hbodies⟩ := bind_eq_ok hrun
  obtain ⟨hb₂, hframes⟩ := bodies_begin hb htypes hitems
  rw [← hframes]
  exact functionBodies_framed f.functions hb₂ hbodies

end Check

namespace Task

open Check

variable {us : List Udt}

/-- The checks of functions succeed, each with the same types active and an empty stack. -/
def Succeeds (us : List Udt) (s : Session) : Task → Prop
  | .bodies ds => Begins us s ∧ ∃ s', ds.forM functionBody s = .ok () s'
  | .body d => Begins us s ∧ ∃ s', functionBody d s = .ok () s'
  | .file f => ∃ us₀ s', Begins us₀ s ∧ us = (f.types.map (·.udt)).reverse ++ us₀ ∧
    Check.file f s = .ok () s'
  | _ => True

theorem succeeds_of_isExpr {s : Session} {t : Task} (h : t.isExpr = true) : t.Succeeds us s := by
  cases t with
  | expr e => trivial
  | arguments callee number args params => trivial
  | _ => cases h

/-- Where the check of a file succeeds, so do the checks of its functions. -/
theorem Succeeds.call {s s' : Session} {t t' : Task} {x : Check Task} (h : t.Succeeds us s)
    (hx : x ∈ t.calls) (hr : x s = .ok t' s') : t'.Succeeds us s' := by
  cases t with
  | file f =>
    obtain ⟨us₀, e, hb, rfl, hrun⟩ := h
    obtain ⟨_, s₁, htypes, hrun⟩ := bind_eq_ok hrun
    obtain ⟨_, s₂, hitems, hbodies⟩ := bind_eq_ok hrun
    simp only [Task.calls, List.mem_cons, List.not_mem_nil, or_false] at hx
    rcases hx with rfl | rfl
    · cases (bind_of_ok htypes).symm.trans hr
      trivial
    · cases ((bind_of_ok htypes).trans (bind_of_ok hitems)).symm.trans hr
      exact ⟨(bodies_begin hb htypes hitems).1, e, hbodies⟩
  | items is =>
    cases is with
    | nil => cases hx
    | cons i is =>
      simp only [Task.calls, List.mem_cons, List.not_mem_nil, or_false] at hx
      rcases hx with rfl | rfl
      · cases hr
        trivial
      · obtain ⟨_, _, _, hr⟩ := bind_eq_ok hr
        cases hr
        trivial
  | item i => exact succeeds_of_isExpr ((itemCalls_asks i x hx).ok hr).2
  | bodies ds =>
    cases ds with
    | nil => cases hx
    | cons d ds =>
      obtain ⟨hb, e, hrun⟩ := h
      obtain ⟨_, s₁, hfirst, hrest⟩ := bind_eq_ok hrun
      simp only [Task.calls, List.mem_cons, List.not_mem_nil, or_false] at hx
      rcases hx with rfl | rfl
      · cases hr
        exact ⟨hb, s₁, hfirst⟩
      · cases (bind_of_ok hfirst).symm.trans hr
        exact ⟨(functionBody_framed hb.fits hfirst).begins hb, e, hrest⟩
  | body d =>
    rw [Task.calls, bodyCalls_eq, List.mem_singleton] at hx
    subst hx
    obtain ⟨_, _, _, hr⟩ := bind_eq_ok hr
    cases hr
    trivial
  | block b =>
    obtain ⟨o, c, ss⟩ := b
    obtain rfl := List.mem_singleton.mp hx
    cases hr
    trivial
  | stmts ss =>
    cases ss with
    | nil => cases hx
    | cons st ss =>
      simp only [Task.calls, List.mem_cons, List.not_mem_nil, or_false] at hx
      rcases hx with rfl | rfl
      · cases hr
        trivial
      · obtain ⟨_, _, _, hr⟩ := bind_eq_ok hr
        cases hr
        trivial
  | stmt st =>
    rcases stmtCalls_cases st hx with hasks | ⟨before, b, after, rfl, _, _, _⟩
    · exact succeeds_of_isExpr ((hasks s).ok hr).2
    · obtain ⟨_, _, _, hr⟩ := bind_eq_ok hr
      cases hr
      trivial
  | expr e => exact succeeds_of_isExpr ((Task.calls_asks rfl x hx).ok hr).2
  | arguments _ _ _ _ => exact succeeds_of_isExpr ((Task.calls_asks rfl x hx).ok hr).2

end Task

/-- The frames of a file are the denotation of its syntax. If a file is found right while the stack is
empty, it has one frame for each function in the order of the text, and this is the frame that the
syntax of the function gives among the types of the file and those active before. Each parameter,
variable and constant of the function is in the frame once; and at every moment of the check of the
function the stack is at most as large as the frame. -/
theorem frames_denote_syntax (file : String) (memory : Tracker) (names : Registry)
    (source : SourceFile) {v : VerifiedFile} (hstack : memory.stack = [])
    (h : (verify file memory names source).result = .ok v) :
    let us := (source.types.map (·.udt)).reverse ++ memory.udts
    v.frames = source.functions.map (·.frame us) ∧
    (∀ d ∈ source.functions,
      ((d.frame us).elements.map (·.element.id)).Perm (d.locals.map (·.name?))) ∧
    ∀ d s₁ s, Reaches (.file source) (.start file memory names) (.body d) s₁ → During d s₁ s →
      s.memory.stackSize ≤ (d.frame us).size := by
  intro us
  obtain ⟨s', hrun, rfl⟩ := verify_result_ok h
  have hb : Check.Begins memory.udts (.start file memory names) := ⟨rfl, hstack, rfl⟩
  obtain ⟨hframes, hlocals⟩ := Check.file_framed hb hrun
  refine ⟨hframes, hlocals, fun d s₁ s hr hd => ?_⟩
  have hsucceeds : (Task.body d).Succeeds us s₁ :=
    hr.keep (P := fun t s => t.Succeeds us s) (fun _ _ _ _ _ h => h.call) ⟨_, s', hb, rfl, hrun⟩
  obtain ⟨hb₁, e, hbody⟩ := hsucceeds
  rw [Check.functionBody_eq] at hbody
  obtain ⟨r, s₂, hparams, hbody⟩ := bind_eq_ok hbody
  obtain ⟨_, s₃, hstmts, _⟩ := bind_eq_ok hbody
  have hle : bytesOf s.memory.stack ≤ bytesOf ((d.frame us).elements.map (·.element)) := by
    rw [← hb₁.udts, ← Check.weight_eq_frame hb₁.stack hparams hstmts]
    exact hd.weight_le hb₁.body hparams hstmts
  rw [Tracker.stackSize, Frame.size, totalSize_eq, totalSize_eq]
  omega

/-- A library with a function that declares locals and a type at several depths. -/
def nestedLocals : Library :=
  .ofTexts [("main", "fn f(p: u8) \x7b var a: u16 = 7; type T \x7b x: u32, y: u8 \x7d " ++
    "if (p) \x7b var b: T; \x7d else \x7b const c: u8 = 3; \x7d " ++
    "while (a) \x7b var d: u16[2]; \x7b var e: u8; \x7d \x7d var g: u8; \x7d")]

theorem eq_ok_of_toOption {ε α : Type} {x : Except ε α} {a : α} (h : x.toOption = some a) :
    x = .ok a := by
  cases x with
  | ok b => exact congrArg Except.ok (Option.some.inj h)
  | error e => cases h

/-- The frame of `f` begins with the locals of its inner blocks; where the innermost block ends, four
of the seven are on the stack. -/
theorem frames_denote_syntax_nestedLocals :
    ∃ source v us d s₁ s, Project.load nestedLocals "main" = .ok source ∧
      (verify "main" .empty .empty source).result = .ok v ∧
      v.frames = source.functions.map (·.frame us) ∧
      v.frames.map (·.elements.map fun p =>
          (p.element.label, p.element.size, p.element.value, p.offset)) =
        [[("b", 5, 0, 0), ("c", 1, 3, 0), ("e", 1, 0, 0), ("d", 4, 0, 0), ("g", 1, 0, 0),
          ("a", 2, 7, 1), ("p", 1, 0, 3)]] ∧
      Reaches (.file source) (.start "main" .empty .empty) (.body d) s₁ ∧ During d s₁ s ∧
      s.memory.stack.map (·.size) = [1, 4, 2, 1] ∧ s.memory.stackSize ≤ (d.frame us).size := by
  have hload : ((Project.load nestedLocals "main").toOption.bind fun source =>
      (verify "main" .empty .empty source).result.toOption.bind fun v =>
        (Task.follow [1, 0] (.file source) (.start "main" .empty .empty)).bind fun r =>
          match r.1 with
          | .body _ => (Task.follow [0, 1, 1, 1, 0, 1, 0, 1, 0, 0, 0, 1] r.1 r.2).map
            fun r' => (v, r'.2)
          | _ => none).any (fun r => r.2.memory.stack.map (·.size) == [1, 4, 2, 1] &&
            r.1.frames.map (·.elements.map fun p =>
              (p.element.label, p.element.size, p.element.value, p.offset)) ==
            [[("b", 5, 0, 0), ("c", 1, 3, 0), ("e", 1, 0, 0), ("d", 4, 0, 0), ("g", 1, 0, 0),
              ("a", 2, 7, 1), ("p", 1, 0, 3)]]) = true := by
    decide +kernel
  obtain ⟨⟨v, s⟩, hr, hvalues⟩ := (Option.any_eq_true _ _).mp hload
  obtain ⟨source, hsource, hr⟩ := Option.bind_eq_some_iff.mp hr
  obtain ⟨v', hv, hr⟩ := Option.bind_eq_some_iff.mp hr
  obtain ⟨⟨body, s₁⟩, hf, hr⟩ := Option.bind_eq_some_iff.mp hr
  split at hr
  · next d hd =>
    obtain rfl : body = .body d := hd
    obtain ⟨⟨task, s'⟩, hf', hpair⟩ := Option.map_eq_some_iff.mp hr
    obtain ⟨rfl, rfl⟩ := Prod.mk.inj hpair
    have hsource := eq_ok_of_toOption hsource
    have hv := eq_ok_of_toOption hv
    obtain ⟨hstack, hframes⟩ := Bool.and_eq_true_iff.mp hvalues
    have hreach : Reaches (.file source) (.start "main" .empty .empty) (.body d) s₁ := .of_follow hf
    have hduring : During d s₁ s' := .tasks (.of_follow hf')
    obtain ⟨hdenote, _, hsize⟩ := frames_denote_syntax "main" .empty .empty source rfl hv
    exact ⟨source, v', _, d, s₁, s', hsource, hv, hdenote, eq_of_beq hframes, hreach, hduring,
      eq_of_beq hstack, hsize d s₁ s' hreach hduring⟩
  · cases hr

end StoragePlan
