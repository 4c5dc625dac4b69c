/-
Reading statements. Every statement has a reader of its own, which the first of its tokens chooses; it
reads the tokens of the statement back when a semicolon comes next. Statements nested in another are read
by the same readers with a smaller bound, so that the proof follows the tree.
-/
import LivePatch.Proofs.Syntax.Expression

namespace LivePatch

open Spelling (commas braces docTokens returned? defaultsLast)

/-! ## Parts of readers -/

namespace Reader

variable (expr : Reader Expr) (stmt : Reader Stmt)

/-- A parameter. -/
def param (defaulted : Bool) : Reader Param := do
  let (x, s) ← ident .parameterName
  if ← eat (.sign .equal) then
    let e ← expr
    return ⟨x, some e⟩
  else if defaulted then throw (.defaultOrder x s)
  else return ⟨x, none⟩

/-- The parameters behind `p`, together with it. -/
def moreParams (defaulted : Bool) (n : Nat) (p : Param) : Reader (List Param) := do
  if ← eat (.sign .comma) then
    let ps ← params expr (defaulted || p.default.isSome) n
    return p :: ps
  else return [p]

/-- The body of a function. -/
def bodyOf (n : Nat) : Reader (List Stmt) := do
  if ← eat (.sign .equal) then
    let value ← expr
    return [.leave (some value) value.span]
  else block stmt n

/-- The second block of a choice. -/
def otherwise (n : Nat) : Reader (List Stmt) := do
  if ← eat (.keyword .otherwise) then
    if ← at? (.keyword .branch) then
      let other ← branching expr stmt n
      return [other]
    else block stmt n
  else return []

/-- The bases of a class. -/
def bases (n : Nat) : Reader (List Expr) := do
  if ← eat (.sign .leftParen) then arguments expr n else return []

/-- What a reader passes, with a semicolon behind it if there is one. -/
def delimited (item : Reader Stmt) : Reader Stmt := do
  let s ← item
  let _ ← eat (.sign .semicolon)
  return s

theorem params_succ (defaulted : Bool) (n : Nat) :
    params expr defaulted (n + 1) = (do
      if ← at? (.sign .rightParen) then return [] else
      let p ← param expr defaulted
      moreParams expr defaulted n p) := by
  rw [params]
  unfold param moreParams
  simp only [bind_assoc]
  congr; funext closed
  cases closed with
  | true => rfl
  | false =>
    simp only [Bool.false_eq_true, if_false]
    congr; funext x; congr; funext more
    cases more with
    | true =>
      simp only [if_true, map_eq_pure_bind, bind_assoc, pure_bind]
      rfl
    | false =>
      simp only [Bool.false_eq_true, if_false, pure_bind]
      cases defaulted <;> rfl

theorem function_eq (n : Nat) (doc : Option String) :
    function expr stmt n doc = (do
      let start ← expect (.keyword .function)
      let (x, _) ← ident .functionName
      let _ ← expect (.sign .leftParen)
      let ps ← params expr false n
      let _ ← expect (.sign .rightParen)
      let body ← bodyOf expr stmt n
      let stop ← last
      return .function x ps body doc (start.merge stop)) := by
  unfold function bodyOf
  simp only [bind_assoc]
  congr; funext start; congr; funext x; congr; funext _; congr; funext ps; congr; funext _
  congr; funext short
  cases short with
  | true => simp only [if_true, bind_assoc, pure_bind]
  | false => rfl

theorem branching_succ (n : Nat) :
    branching expr stmt (n + 1) = (do
      let start ← expect (.keyword .branch)
      let cond ← expr
      let whenTrue ← block stmt n
      let whenFalse ← otherwise expr stmt n
      let stop ← last
      return .branch cond whenTrue whenFalse (start.merge stop)) := by
  rw [branching]
  unfold otherwise
  simp only [bind_assoc]
  congr; funext start; congr; funext cond; congr; funext whenTrue; congr; funext more
  cases more with
  | false => rfl
  | true =>
    simp only [if_true, bind_assoc]
    congr; funext chained
    cases chained with
    | false => rfl
    | true => simp only [if_true, bind_assoc, pure_bind]

theorem classDef_succ (n : Nat) (doc : Option String) :
    classDef expr stmt (n + 1) doc = (do
      let start ← expect (.keyword .classDef)
      let (x, _) ← ident .className
      let es ← bases expr n
      let _ ← expect (.sign .leftBrace)
      let body ← untilSign (.sign .rightBrace) (classItem expr stmt (classDef expr stmt n) n) n
      let _ ← expectAs (.sign .rightBrace) .classItem
      let stop ← last
      return .classDef x es body doc (start.merge stop)) := by
  rw [classDef]
  unfold bases
  simp only [bind_assoc]
  congr; funext start; congr; funext x; congr; funext given
  cases given <;> rfl

theorem statement_succ (n : Nat) :
    statement (n + 1) =
      docs >>= fun doc => delimited (undelimited (expression (n + 1)) (statement n) (n + 1) doc) := rfl

end Reader

/-! ## Trees up to places -/

/-- The two parameters are the same but for the places of their nodes. -/
def Param.Same (p p' : Param) : Prop := p'.unplaced = p.unplaced

/-- The two statements are the same but for the places of their nodes. -/
def Stmt.Same (s s' : Stmt) : Prop := s'.unplaced = s.unplaced

theorem Param.map_unplaced_of_forall₂ {ps ps' : List Param} (h : List.Forall₂ Param.Same ps ps') :
    ps'.map Param.unplaced = ps.map Param.unplaced := by
  induction h with
  | nil => rfl
  | cons hp _ ih => rw [List.map_cons, List.map_cons, ih, show _ = _ from hp]

theorem Stmt.unplacedAll_of_forall₂ {ss ss' : List Stmt} (h : List.Forall₂ Stmt.Same ss ss') :
    Stmt.unplacedAll ss' = Stmt.unplacedAll ss := by
  induction h with
  | nil => rfl
  | cons hs _ ih =>
    unfold Stmt.unplacedAll
    rw [show _ = _ from hs, ih]

theorem Expr.Same.isTarget {e e' : Expr} (h : e.Same e') : e'.isTarget = e.isTarget := by
  have hu : ∀ e : Expr, e.unplaced.isTarget = e.isTarget := fun e => by cases e <;> rfl
  rw [← hu e', ← hu e, show e'.unplaced = e.unplaced from h]

/-! ## Single statements -/

/-- A semicolon comes next. -/
def Ends (o : Option Token) : Prop := o = some (.sign .semicolon)

theorem Ends.stops (o : Option Token) (h : Ends o) : Stops 1 o := by
  rw [h]
  exact Stops.some.2 (by decide)

namespace Reads

variable {expr : Reader Expr} {stmt : Reader Stmt} {e : Expr} {ts us : List Token} {k : Nat}

/-- An expression at the end of a statement. -/
theorem ending {α : Type} {f : Expr → Reader α} {Q : α → Prop} (h : Reads expr e.spell (Stops 1) e.Same)
    (hf : ∀ e', e.Same e' → Reads (f e') [] Ends Q) : Reads (expr >>= f) e.spell Ends Q :=
  (h.imp Ends.stops fun _ he => he).finish hf

theorem binding (x : Name) (s : Span) (h : Reads expr e.spell (Stops 1) e.Same) :
    Reads (Reader.binding expr) (.keyword .bind :: .ident x :: .sign .equal :: e.spell) Ends
      (Stmt.Same (.bind x e s)) := by
  unfold Reader.binding
  refine (expect _).step ?_
  rintro start -
  refine (ident x _).step ?_
  rintro ⟨y, s'⟩ rfl
  refine (expect _).step ?_
  rintro _ -
  refine h.ending ?_
  intro e' he
  exact .pure (congrArg (Stmt.bind y · .dummy) he)

theorem raising (s : Span) (h : Reads expr e.spell (Stops 1) e.Same) :
    Reads (Reader.raising expr) (.keyword .raise :: e.spell) Ends (Stmt.Same (.raise e s)) := by
  unfold Reader.raising
  refine (expect _).step ?_
  rintro start -
  refine h.ending ?_
  intro e' he
  exact .pure (congrArg (Stmt.raise · .dummy) he)

theorem leaving_nothing (s : Span) :
    Reads (Reader.leaving expr) [.keyword .leave] Ends (Stmt.Same (.leave none s)) := by
  unfold Reader.leaving
  refine (expect _).step ?_
  rintro start -
  refine (peek (some (.sign .semicolon))).look ?_ fun _ ho => ho
  rintro _ rfl
  exact .pure rfl

theorem leaving (s : Span) (h : Reads expr e.spell (Stops 1) e.Same) :
    Reads (Reader.leaving expr) (.keyword .leave :: e.spell) Ends (Stmt.Same (.leave (some e) s)) := by
  unfold Reader.leaving
  refine (expect _).step ?_
  rintro start -
  obtain ⟨t, ht, hopen⟩ := e.opens
  refine (peek (some t)).look ?_ fun _ _ => by rw [ht]; rfl
  rintro _ rfl
  split
  · rename_i hno
    cases hno
  · rename_i hbrace
    cases hbrace
    exact absurd hopen (by decide)
  · rename_i hsemicolon
    cases hsemicolon
    exact absurd hopen (by decide)
  · refine h.ending ?_
    intro e' he
    exact .pure (congrArg (fun e => Stmt.leave (some e) .dummy) he)

theorem assignment {target : Expr} (s : Span) (ht : Reads expr target.spell (Stops 1) target.Same)
    (htarget : target.isTarget = true) (h : Reads expr e.spell (Stops 1) e.Same) :
    Reads (Reader.assignment expr) (target.spell ++ .sign .equal :: e.spell) Ends
      (Stmt.Same (.assign target e s)) := by
  unfold Reader.assignment
  refine ht.bind ?_ fun _ _ => Stops.some.2 (by decide)
  intro t' ht'
  refine (eat _).step ?_
  rintro _ rfl
  simp only [if_true, ht'.isTarget, htarget]
  refine h.ending ?_
  intro e' he
  refine .pure ?_
  show Stmt.assign t'.unplaced e'.unplaced .dummy = _
  rw [show t'.unplaced = _ from ht', show e'.unplaced = _ from he]
  rfl

theorem assignment_expr (h : Reads expr e.spell (Stops 1) e.Same) :
    Reads (Reader.assignment expr) e.spell Ends (Stmt.Same (.expr e)) := by
  unfold Reader.assignment
  refine h.ending ?_
  intro e' he
  refine (eat_none _).look ?_ fun o ho => by rw [show o = _ from ho]; simp
  rintro _ rfl
  exact .pure (congrArg Stmt.expr he)

/-! ## Blocks -/

theorem block {P : List Stmt → Prop}
    (h : Reads (Reader.untilSign (.sign .rightBrace) stmt k) ts (· = some (.sign .rightBrace)) P) :
    Reads (Reader.block stmt k) (braces ts) (fun _ => True) P := by
  unfold Reader.block braces
  rw [List.cons_append]
  refine (expect _).step ?_
  rintro _ -
  refine h.bind ?_ fun _ _ => rfl
  intro body hbody
  refine (expect _).step ?_
  rintro _ -
  exact .pure hbody

/-! ## Functions -/

theorem param {p : Param} {defaulted : Bool} (hd : defaulted = true → p.default.isSome = true)
    (h : ∀ e ∈ p.default, Reads expr e.spell (Stops 1) e.Same) :
    Reads (Reader.param expr defaulted) p.spell
      (fun o => o = some (.sign .comma) ∨ o = some (.sign .rightParen)) p.Same := by
  obtain ⟨x, default⟩ := p
  unfold Reader.param Param.spell
  refine (ident x _).step ?_
  rintro ⟨y, s⟩ rfl
  cases default with
  | none =>
    refine (eat_none _).look ?_ fun o ho => by rcases ho with rfl | rfl <;> simp
    rintro _ rfl
    cases defaulted with
    | true => cases hd rfl
    | false => exact .pure rfl
  | some e =>
    refine (eat _).step ?_
    rintro _ rfl
    refine ((h e rfl).imp ?_ fun _ he => he).finish ?_
    · rintro o (rfl | rfl)
      · exact Stops.some.2 (by decide)
      · exact Stops.some.2 (by decide)
    · intro e' he
      exact .pure (congrArg (fun e => Param.mk y (some e)) he)

theorem moreParams_last {p : Param} {defaulted : Bool} :
    Reads (Reader.moreParams expr defaulted k p) [] (· = some (.sign .rightParen)) (· = [p]) := by
  unfold Reader.moreParams
  refine (eat_none _).look ?_ fun o ho => by rw [ho]; simp
  rintro _ rfl
  exact .pure rfl

/-- Parameters are read one by one, when their defaults are read and none is missing behind another. -/
theorem params : ∀ {ps : List Param} {defaulted : Bool} {k : Nat}, ps.length ≤ k →
    (if defaulted then ps.all (·.default.isSome) else defaultsLast ps) = true →
    (∀ p ∈ ps, ∀ e ∈ p.default, Reads expr e.spell (Stops 1) e.Same) →
    Reads (Reader.params expr defaulted k) (commas (ps.map Param.spell)) (· = some (.sign .rightParen))
      (List.Forall₂ Param.Same ps)
  | [], _, 0, _, _, _ => .pure .nil
  | [], _, k + 1, _, _, _ => by
    rw [Reader.params_succ]
    refine (at? (.sign .rightParen) true).look ?_ fun o ho => by rw [ho]; simp [commas]
    rintro _ rfl
    exact .pure .nil
  | p :: ps, defaulted, k + 1, hk, hlast, h => by
    have hhead : (commas ((p :: ps).map Param.spell)).head? = some (.ident p.name) := by
      cases ps <;> rfl
    have hd : defaulted = true → p.default.isSome = true := by
      rintro rfl
      exact List.all_eq_true.1 hlast p (List.mem_cons_self ..)
    -- the parameters behind this one need defaults if it has one, or if one was needed here
    have hlast' : (if defaulted || p.default.isSome then ps.all (·.default.isSome) else defaultsLast ps) =
        true := by
      cases defaulted with
      | true =>
        simp only [if_true, List.all_cons, Bool.and_eq_true] at hlast
        exact hlast.2
      | false => exact hlast
    have hp := param hd (h p (List.mem_cons_self ..))
    rw [Reader.params_succ]
    refine (at? (.sign .rightParen) false).look ?_ fun o _ => by rw [hhead]; rfl
    rintro _ rfl
    simp only [Bool.false_eq_true, if_false]
    cases ps with
    | nil =>
      refine (hp.imp (fun _ ho => .inr ho) fun _ hp => hp).finish ?_
      intro p' hp'
      refine moreParams_last.imp (fun _ ho => ho) ?_
      rintro _ rfl
      exact .cons hp' .nil
    | cons q ps =>
      show Reads _ (p.spell ++ .sign .comma :: commas ((q :: ps).map Param.spell)) _ _
      refine hp.bind ?_ fun _ _ => .inl rfl
      intro p' hp'
      have hsome : p'.default.isSome = p.default.isSome := by
        have h' := congrArg (·.default.isSome) (show p'.unplaced = p.unplaced from hp')
        simpa [Param.unplaced] using h'
      rw [← hsome] at hlast'
      unfold Reader.moreParams
      refine (eat _).step ?_
      rintro _ rfl
      refine (params (Nat.le_of_succ_le_succ hk) hlast' fun q hq => h q (List.mem_cons_of_mem _ hq)).finish ?_
      intro ps' hps'
      exact .pure (.cons hp' hps')

theorem bodyOf_short (s : Span) (h : Reads expr e.spell (Stops 1) e.Same) :
    Reads (Reader.bodyOf expr stmt k) (.sign .equal :: e.spell) Ends
      (List.Forall₂ Stmt.Same [.leave (some e) s]) := by
  unfold Reader.bodyOf
  refine (eat _).step ?_
  rintro _ rfl
  refine h.ending ?_
  intro e' he
  exact .pure (.cons (congrArg (fun e => Stmt.leave (some e) .dummy) he) .nil)

theorem bodyOf {body : List Stmt}
    (h : Reads (Reader.block stmt k) (braces ts) (fun _ => True) (List.Forall₂ Stmt.Same body)) :
    Reads (Reader.bodyOf expr stmt k) (braces ts) Ends (List.Forall₂ Stmt.Same body) := by
  unfold Reader.bodyOf
  refine (eat_none _).look ?_ fun _ _ => by simp [braces]
  rintro _ rfl
  exact h.imp (fun _ _ => trivial) fun _ hb => hb

theorem function {ps : List Param} {body : List Stmt} (x : Name) (doc : Option String) (s : Span)
    (hps : Reads (Reader.params expr false k) ts (· = some (.sign .rightParen)) (List.Forall₂ Param.Same ps))
    (hbody : Reads (Reader.bodyOf expr stmt k) us Ends (List.Forall₂ Stmt.Same body)) :
    Reads (Reader.function expr stmt k doc)
      (.keyword .function :: .ident x :: .sign .leftParen :: (ts ++ .sign .rightParen :: us)) Ends
      (Stmt.Same (.function x ps body doc s)) := by
  rw [Reader.function_eq]
  refine (expect _).step ?_
  rintro start -
  refine (ident x _).step ?_
  rintro ⟨y, s'⟩ rfl
  refine (expect _).step ?_
  rintro _ -
  refine hps.bind ?_ fun _ _ => rfl
  intro ps' hps'
  refine (expect _).step ?_
  rintro _ -
  refine hbody.finish ?_
  intro body' hbody'
  refine last.look ?_ fun _ _ => trivial
  rintro stop -
  refine .pure ?_
  show Stmt.function y (ps'.map Param.unplaced) (Stmt.unplacedAll body') doc .dummy = _
  rw [Param.map_unplaced_of_forall₂ hps', Stmt.unplacedAll_of_forall₂ hbody']
  rfl

/-! ## Choices -/

theorem otherwise_nothing : Reads (Reader.otherwise expr stmt k) [] Ends (· = []) := by
  unfold Reader.otherwise
  refine (eat_none _).look ?_ fun o ho => by rw [show o = _ from ho]; simp
  rintro _ rfl
  exact .pure rfl

theorem otherwise_chained {s : Stmt} (h : Reads (Reader.branching expr stmt k) (.keyword .branch :: ts) Ends s.Same) :
    Reads (Reader.otherwise expr stmt k) (.keyword .otherwise :: .keyword .branch :: ts) Ends
      (List.Forall₂ Stmt.Same [s]) := by
  unfold Reader.otherwise
  refine (eat _).step ?_
  rintro _ rfl
  refine (at? (.keyword .branch) true).look ?_ fun _ _ => by simp
  rintro _ rfl
  refine h.finish ?_
  intro s' hs
  exact .pure (.cons hs .nil)

theorem otherwise {body : List Stmt}
    (h : Reads (Reader.block stmt k) (braces ts) (fun _ => True) (List.Forall₂ Stmt.Same body)) :
    Reads (Reader.otherwise expr stmt k) (.keyword .otherwise :: braces ts) Ends
      (List.Forall₂ Stmt.Same body) := by
  unfold Reader.otherwise
  refine (eat _).step ?_
  rintro _ rfl
  refine (at? (.keyword .branch) false).look ?_ fun _ _ => by simp [braces]
  rintro _ rfl
  exact h.imp (fun _ _ => trivial) fun _ hb => hb

theorem branching {cond : Expr} {whenTrue whenFalse : List Stmt} (s : Span)
    (hc : Reads expr cond.spell (Stops 1) cond.Same)
    (ht : Reads (Reader.block stmt k) (braces ts) (fun _ => True) (List.Forall₂ Stmt.Same whenTrue))
    (hf : Reads (Reader.otherwise expr stmt k) us Ends (List.Forall₂ Stmt.Same whenFalse)) :
    Reads (Reader.branching expr stmt (k + 1)) (.keyword .branch :: (cond.spell ++ (braces ts ++ us))) Ends
      (Stmt.Same (.branch cond whenTrue whenFalse s)) := by
  rw [Reader.branching_succ]
  refine (expect _).step ?_
  rintro start -
  refine hc.bind ?_ fun _ _ => Stops.some.2 (by decide)
  intro cond' hcond
  refine ht.bind ?_ fun _ _ => trivial
  intro whenTrue' htrue
  refine hf.finish ?_
  intro whenFalse' hfalse
  refine last.look ?_ fun _ _ => trivial
  rintro stop -
  refine .pure ?_
  show Stmt.branch cond'.unplaced (Stmt.unplacedAll whenTrue') (Stmt.unplacedAll whenFalse') .dummy = _
  rw [show cond'.unplaced = _ from hcond, Stmt.unplacedAll_of_forall₂ htrue,
    Stmt.unplacedAll_of_forall₂ hfalse]
  rfl

/-! ## Classes -/

theorem bases {es : List Expr}
    (h : Reads (Reader.separated (.sign .rightParen) expr k) (commas (Expr.spellEach es))
      (· = some (.sign .rightParen)) (List.Forall₂ Expr.Same es)) :
    Reads (Reader.bases expr k)
      (if es.isEmpty then [] else .sign .leftParen :: (commas (Expr.spellEach es) ++ [.sign .rightParen]))
      (· = some (.sign .leftBrace)) (List.Forall₂ Expr.Same es) := by
  unfold Reader.bases
  cases es with
  | nil =>
    refine (eat_none _).look ?_ fun o ho => by rw [ho]; simp
    rintro _ rfl
    exact .pure .nil
  | cons e es =>
    refine (eat _).step ?_
    rintro _ rfl
    exact (arguments h).imp (fun _ _ => trivial) fun _ hes => hes

theorem classDef {es : List Expr} {body : List Stmt} (x : Name) (doc : Option String) (s : Span)
    (hes : Reads (Reader.separated (.sign .rightParen) expr k) (commas (Expr.spellEach es))
      (· = some (.sign .rightParen)) (List.Forall₂ Expr.Same es))
    (hbody : Reads (Reader.untilSign (.sign .rightBrace)
        (Reader.classItem expr stmt (Reader.classDef expr stmt k) k) k) ts
      (· = some (.sign .rightBrace)) (List.Forall₂ Stmt.Same body)) :
    Reads (Reader.classDef expr stmt (k + 1) doc)
      (.keyword .classDef :: .ident x ::
        ((if es.isEmpty then []
          else .sign .leftParen :: (commas (Expr.spellEach es) ++ [.sign .rightParen])) ++ braces ts)) Ends
      (Stmt.Same (.classDef x es body doc s)) := by
  rw [Reader.classDef_succ]
  refine (expect _).step ?_
  rintro start -
  refine (ident x _).step ?_
  rintro ⟨y, s'⟩ rfl
  refine (bases hes).bind ?_ fun _ _ => rfl
  intro es' hes'
  unfold braces
  rw [List.cons_append]
  refine (expect _).step ?_
  rintro _ -
  refine hbody.bind ?_ fun _ _ => rfl
  intro body' hbody'
  refine (expectAs _ _).step ?_
  rintro _ -
  refine last.look ?_ fun _ _ => trivial
  rintro stop -
  refine .pure ?_
  show Stmt.classDef y (Expr.unplacedAll es') (Stmt.unplacedAll body') doc .dummy = _
  rw [Expr.unplacedAll_of_forall₂ hes', Stmt.unplacedAll_of_forall₂ hbody']
  rfl

/-! ## Delimiters and doc texts -/

theorem delimited {item : Reader Stmt} {Q : Stmt → Prop} (h : Reads item ts Ends Q) :
    Reads (Reader.delimited item) (ts ++ [.sign .semicolon]) (fun _ => True) Q := by
  unfold Reader.delimited
  refine h.bind ?_ fun _ _ => rfl
  intro s hs
  refine (eat _).step ?_
  rintro _ rfl
  exact .pure hs

/-- A reader behind the doc text of what it reads. -/
theorem documented {f : Option String → Reader Stmt} {F : Option Token → Prop} {Q : Stmt → Prop}
    {doc : Option String} (h : Reads (f doc) ts F Q) (hhead : ∃ t ∈ ts.head?, ∀ text, t ≠ .doc text) :
    Reads (Reader.docs >>= f) (docTokens doc ++ ts) F Q := by
  obtain ⟨t, ht, hdoc⟩ := hhead
  refine (docs doc).bind ?_ fun o _ text => ?_
  · rintro _ rfl
    exact h
  · rw [ht]
    simpa using hdoc text

end Reads

end LivePatch
