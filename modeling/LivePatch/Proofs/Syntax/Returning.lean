/-
Reading comes to an end. By induction on the number of tokens left, every reader without a bound agrees with
the one whose bound exceeds this number: within a level on the operators before an operand, within an
expression on the brackets around it and within a statement on the braces around it. So each of them comes to
an outcome, passes what the bounded reader passes, and the loops are left.
-/
import LivePatch.Proofs.Syntax.Laps

namespace LivePatch

/-! ## Expressions -/

theorem Passes.ofLevel (n : Nat) : ∀ (ℓ : Nat) (l : Span), Passes l (Reader.ofLevel n ℓ) Expr.From
  | 1, l => disjunction (expression n) (n + 1) l
  | 2, l => conjunction (expression n) (n + 1) l
  | 3, l => negated (expression n) (n + 1) l
  | 4, l => compared (sum (expression n) (n + 1)) l
  | 5, l => sum (expression n) (n + 1) l
  | 6, l => product (expression n) (n + 1) l
  | 7, l => signed (expression n) (n + 1) l
  | 8, l => trailed (expression n) (n + 1) l
  | 0, _ | _ + 9, _ => .expected

namespace Attempt.Agrees

section Level

variable {n k ℓ : Nat} {operand : Reader Expr}

theorem operators (ho : Agrees n (level · (ℓ + 1)) operand) (hpass : ∀ l, Passes l operand Expr.From)
    (hk : n ≤ k) (left : Expr) :
    Agrees n (Attempt.operators · ℓ left) (Reader.chainFrom (BinaryOp.atLevel? ℓ) operand k left) :=
  loop (operators_succ · ℓ) (Reader.chainFrom_succ _ _) (fun _ => Passes.operatorLap hpass)
    (fun _ _ left _ hn => (ho.mono hn).operatorLap hpass left) left hk (Nat.le_refl n)

/-- A level of operators that group to the left. -/
theorem grouped (hlevel : ∀ d, level (d + 1) ℓ = level d (ℓ + 1) >>= Attempt.operators d ℓ)
    (ho : Agrees n (level · (ℓ + 1)) operand) (hpass : ∀ l, Passes l operand Expr.From) (hk : n ≤ k) :
    Agrees n (level · ℓ) (Reader.chain (BinaryOp.atLevel? ℓ) operand k) := by
  refine deeper ?_
  simp only [hlevel]
  exact ho.keep hpass fun left => operators ho hpass hk left

/-- A level of operators before an operand. -/
theorem led (op : UnaryOp) {ℓ' : Nat}
    (hlevel : ∀ d, level (d + 1) ℓ = (do
      if ← Reader.at? op.token then
        let start ← Reader.expect op.token
        let e ← level d ℓ
        return .lead op start e
      else level d ℓ' : Attempt Expr))
    (hpass : ∀ l, Passes l operand Expr.From) :
    ∀ {k n : Nat}, Agrees n (level · ℓ') operand → n ≤ k →
      Agrees n (level · ℓ) (Reader.led op.token op operand k)
  | 0, n, _, hk => of_le_zero hk
  | k + 1, n, ho, hk => by
    refine deeper ?_
    simp only [hlevel]
    refine at? fun b => ite (fun _ => expect fun start => ?_) fun _ => ho
    exact (led op hlevel hpass (ho.mono (Nat.sub_le n 1)) (by omega)).keep (Passes.led op hpass k) fun e => pure

theorem compared (ho : Agrees n (level · 5) operand) (hpass : ∀ l, Passes l operand Expr.From) :
    Agrees n (level · 4) (Reader.compared operand) := by
  refine deeper (ho.keep hpass fun left => operator pure fun op => ?_)
  exact (ho.mono (Nat.sub_le n 1)).keep hpass fun right => pure

end Level

section Expression

variable {n k : Nat} {expr : Reader Expr} (hexpr : Agrees n (level · 1) expr)
  (hpass : ∀ l, Passes l expr Expr.From)

include hexpr hpass

theorem primary : Agrees (n + 1) Attempt.primary (Reader.primary expr) := by
  rw [Reader.primary_eq]
  refine deeper (at? fun b => ite (fun _ => expect fun start => ?_) fun _ => lift _ _)
  exact hexpr.keep hpass fun inner => expect fun close => pure

theorem argumentsFrom (hk : n ≤ k) (es : List Expr) :
    Agrees n (Attempt.argumentsFrom · es) (Reader.behind es (Reader.separated (.sign .rightParen) expr k)) := by
  refine loop (f := fun k es => Reader.behind es (Reader.separated (.sign .rightParen) expr k))
    argumentsFrom_succ (Reader.separated_succ _ expr) ?_ ?_ es hk (Nat.le_refl n)
  · exact fun _ => Passes.separatedLap fun _ => hpass
  · exact fun _ _ es _ hn => separatedLap (fun _ => hexpr.mono hn) (fun _ => hpass) es

theorem arguments (hk : n ≤ k) : Agrees n Attempt.arguments (Reader.arguments expr k) := by
  have hes : ∀ l, Passes l (Reader.separated (.sign .rightParen) expr k) Expr.AllFrom :=
    .separated hpass .nil .last .cons k
  have hfrom := argumentsFrom hexpr hpass hk []
  rw [Reader.behind_nil] at hfrom
  exact deeper (hfrom.keep hes fun es => expect fun _ => pure)

theorem trailers (hk : n + 1 ≤ k) (e : Expr) :
    Agrees (n + 1) (Attempt.trailers · e) (Reader.trailersFrom expr k e) := by
  refine loop trailers_succ (Reader.trailersFrom_succ expr) ?_ ?_ e hk (Nat.le_refl _)
  · exact fun k => Passes.trailerLap (Passes.arguments hpass k)
  · intro n' k e hk hn
    have hargs := arguments (hexpr.mono (show n' - 1 ≤ n by omega)) hpass (show n' - 1 ≤ k by omega)
    exact trailerLap hargs (Passes.arguments hpass k) e

end Expression

/-- From the tightest level to the loosest, as each level is read by the next tighter one. The expressions in
brackets stand behind a token, so that for them one token less will do. -/
theorem ofLevel (h : Agrees n (level · 1) (Reader.expression n)) :
    ∀ ℓ, Agrees (n + 1) (level · ℓ) (Reader.ofLevel n ℓ) := by
  have hexpr := Passes.expression n
  have hpass := Passes.ofLevel n
  have h8 : Agrees (n + 1) (level · 8) (Reader.ofLevel n 8) :=
    deeper ((primary h hexpr).keep (Passes.primary hexpr) fun e => trailers h hexpr (Nat.le_refl _) e)
  have h7 : Agrees (n + 1) (level · 7) (Reader.ofLevel n 7) :=
    led .neg (fun _ => rfl) (hpass 8) h8 (Nat.le_refl _)
  have h6 : Agrees (n + 1) (level · 6) (Reader.ofLevel n 6) :=
    grouped (fun _ => rfl) h7 (hpass 7) (Nat.le_refl _)
  have h5 : Agrees (n + 1) (level · 5) (Reader.ofLevel n 5) :=
    grouped (fun _ => rfl) h6 (hpass 6) (Nat.le_refl _)
  have h4 : Agrees (n + 1) (level · 4) (Reader.ofLevel n 4) := compared h5 (hpass 5)
  have h3 : Agrees (n + 1) (level · 3) (Reader.ofLevel n 3) :=
    led .not (fun _ => rfl) (hpass 4) h4 (Nat.le_refl _)
  have h2 : Agrees (n + 1) (level · 2) (Reader.ofLevel n 2) :=
    grouped (fun _ => rfl) h3 (hpass 3) (Nat.le_refl _)
  have h1 : Agrees (n + 1) (level · 1) (Reader.ofLevel n 1) :=
    grouped (fun _ => rfl) h2 (hpass 2) (Nat.le_refl _)
  intro ℓ
  match ℓ with
  | 0 => exact deeper (lift _ _)
  | 1 => exact h1
  | 2 => exact h2
  | 3 => exact h3
  | 4 => exact h4
  | 5 => exact h5
  | 6 => exact h6
  | 7 => exact h7
  | 8 => exact h8
  | ℓ + 9 => exact deeper (lift _ _)

theorem expression : ∀ n, Agrees n (level · 1) (Reader.expression n)
  | 0 => of_le_zero (Nat.le_refl 0)
  | n + 1 => ofLevel (expression n) 1

/-! ## Parameters and single statements -/

section Simple

variable {n : Nat} {expr : Reader Expr} (hexpr : Agrees n (level · 1) expr)
  (hpass : ∀ l, Passes l expr Expr.From)

include hexpr hpass

theorem param (ps : List Param) :
    Agrees n (Attempt.param · ps) (Reader.param expr (ps.any (·.default.isSome))) := by
  refine ident fun x => eat_ite ?_ (ite (fun _ => throw) fun _ => pure)
  exact (hexpr.mono (by omega)).keep hpass fun e => pure

theorem params {k : Nat} (hk : n ≤ k) (ps : List Param) :
    Agrees n (Attempt.params · ps)
      (Reader.behind ps (Reader.params expr (ps.any (·.default.isSome)) k)) := by
  have hparam : ∀ (ps : List Param) l, Passes l (Reader.param expr (ps.any (·.default.isSome))) Param.From :=
    fun ps l => (Passes.param hpass _ l).imp fun _ _ h => h.1
  refine loop (f := fun k ps => Reader.behind ps (Reader.params expr (ps.any (·.default.isSome)) k))
    params_succ (Reader.params_lap expr) ?_ ?_ ps hk (Nat.le_refl n)
  · exact fun _ => Passes.separatedLap hparam
  · exact fun _ _ ps _ hn => separatedLap (fun ps => param (hexpr.mono hn) hpass ps) hparam ps

theorem binding : Agrees n Attempt.binding (Reader.binding expr) := by
  refine expect fun start => ident fun x => expect fun _ => ?_
  exact (hexpr.mono (by omega)).keep hpass fun value => pure

theorem leaving : Agrees n Attempt.leaving (Reader.leaving expr) := by
  have hvalue : ∀ start : Span, Agrees (n - 1) (fun d => do
      let value ← level d 1
      return Stmt.leave (some value) (start.merge value.span)) (do
      let value ← expr
      return .leave (some value) (start.merge value.span)) :=
    fun start => (hexpr.mono (Nat.sub_le n 1)).keep hpass fun value => pure
  refine expect fun start => peek fun o => ?_
  cases o with
  | none => exact pure
  | some t =>
    cases t with
    | sign g => cases g <;> first | exact pure | exact hvalue start
    | _ => exact hvalue start

theorem raising : Agrees n Attempt.raising (Reader.raising expr) :=
  expect fun _ => (hexpr.mono (Nat.sub_le n 1)).keep hpass fun _ => pure

theorem assignment : Agrees n Attempt.assignment (Reader.assignment expr) := by
  refine hexpr.keep hpass fun target => eat_ite (ite (fun _ => ?_) fun _ => throw) pure
  exact (hexpr.mono (Nat.sub_le n 1)).keep hpass fun value => pure

theorem bases {k : Nat} (hk : n ≤ k + 1) : Agrees n Attempt.bases (Reader.bases expr k) :=
  eat (arguments (hexpr.mono (Nat.sub_le n 1)) hpass (by omega)) pure

end Simple

/-! ## Statements -/

section Stmt

variable {n k : Nat} {expr : Reader Expr} {stmt : Reader Stmt}

theorem block (hstmt : Agrees (n - 1) Attempt.statement stmt)
    (hitem : ∀ l, Passes l stmt fun ts s => Part.From .item ts [s]) (hk : n ≤ k + 1) :
    Agrees n Attempt.block (Reader.block stmt k) := by
  have hss := untilSign statements_succ hstmt hitem Part.From.ne_nil (show n - 1 ≤ k by omega)
  refine deeper (expect fun _ => hss.keep (P := Part.From .items) ?_ fun body => expect fun _ => pure)
  exact .untilSign hitem .nil .cons k

/-- A statement or an item with its semicolon. -/
theorem delimited {m : Nat → Attempt Stmt} {r : Reader Stmt} {P : List PlacedToken → Stmt → Prop}
    (hm : Agrees n m r) (hr : ∀ l, Passes l r P) :
    Agrees n (fun d => do
      let s ← m d
      let _ ← liftM (Reader.eat (.sign .semicolon))
      return s) (Reader.delimited r) :=
  hm.keep hr fun _ => eat pure pure

variable (hexpr : Agrees n (level · 1) expr) (hpass : ∀ l, Passes l expr Expr.From)
  (hstmt : Agrees (n - 1) Attempt.statement stmt)
  (hitem : ∀ l, Passes l stmt fun ts s => Part.From .item ts [s])

include hexpr hpass hstmt hitem

theorem bodyOf (hk : n ≤ k + 1) : Agrees n Attempt.bodyOf (Reader.bodyOf expr stmt k) := by
  refine deeper (eat_ite ?_ (block hstmt hitem hk))
  exact (hexpr.mono (Nat.sub_le n 1)).keep hpass fun value => pure

theorem function (hk : n ≤ k) (doc : Option String) :
    Agrees n (Attempt.function · doc) (Reader.function expr stmt k doc) := by
  -- the keyword, the name and the bracket have been passed
  have hps := params (hexpr.mono (show n - 1 - 1 - 1 ≤ n by omega)) hpass (show n - 1 - 1 - 1 ≤ k by omega) []
  rw [Reader.behind_nil] at hps
  have hbody := bodyOf hexpr hpass hstmt hitem (show n ≤ k + 1 by omega)
  rw [Reader.function_eq]
  refine deeper (expect fun start => ident fun x => expect fun _ => ?_)
  refine hps.keep (Passes.params hpass false k) fun ps => expect fun _ => ?_
  exact (hbody.mono (by omega)).keep (Passes.bodyOf hpass hitem k) fun body => last fun stop => pure

omit hexpr hpass in
theorem otherwise (hbranch : Agrees (n - 1) Attempt.branching (Reader.branching expr stmt k))
    (hpassBranch : ∀ l, Passes l (Reader.branching expr stmt k) fun ts s =>
      Part.From .statement ts [s] ∧ s.doc? = none) (hk : n ≤ k + 1) :
    Agrees n Attempt.otherwise (Reader.otherwise expr stmt k) := by
  refine deeper (eat_ite (at? fun b => ite (fun _ => ?_) fun _ => ?_) pure)
  · exact hbranch.keep hpassBranch fun other => pure
  · exact block (hstmt.mono (by omega)) hitem (by omega)

omit hexpr hstmt in
theorem branching : ∀ {k n : Nat}, Agrees n (level · 1) expr → Agrees (n - 1) Attempt.statement stmt → n ≤ k →
    Agrees n Attempt.branching (Reader.branching expr stmt k)
  | 0, n, _, _, hk => of_le_zero hk
  | k + 1, n, hexpr, hstmt, hk => by
    have hstmt' := hstmt.mono (show n - 1 - 1 ≤ n - 1 by omega)
    have hbranch := branching (hexpr.mono (show n - 1 - 1 ≤ n by omega)) (hstmt.mono (by omega))
      (show n - 1 - 1 ≤ k by omega)
    rw [Reader.branching_succ]
    refine deeper (expect fun start => (hexpr.mono (Nat.sub_le n 1)).keep hpass fun cond => ?_)
    refine (block hstmt' hitem (by omega)).keep (Passes.block hitem k) fun whenTrue => ?_
    have hpassBranch := Passes.branching hpass hitem k
    exact (otherwise hstmt' hitem hbranch hpassBranch (by omega)).keep (Passes.otherwise hitem hpassBranch)
      fun whenFalse => last fun stop => pure

theorem classItem {nested : Option String → Reader Stmt}
    (hnested : ∀ doc, Agrees n (Attempt.classDef · doc) (nested doc))
    (hpassNested : ∀ doc l, Passes l (nested doc) fun ts s =>
      Part.From .statement ts [s] ∧ s.doc? = doc ∧ s.isClassItem = true) (hk : n ≤ k) :
    Agrees n Attempt.classItem (Reader.classItem expr stmt nested k) := by
  refine deeper (docs fun doc => peek fun o => ?_)
  have hfunction := delimited (function hexpr hpass hstmt hitem hk doc) (Passes.function hpass hitem k doc)
  have hclassDef := delimited (hnested doc) (hpassNested doc)
  have hbinding := delimited (binding hexpr hpass) (Passes.binding hpass)
  -- the semicolon is read behind a fault as well, to no effect
  have hother : Agrees n (fun _ => do
      let s ← (liftM (Reader.expected .classItem : Reader Stmt) : Attempt Stmt)
      let _ ← liftM (Reader.eat (.sign .semicolon))
      return s) (Reader.delimited (Reader.expected .classItem)) :=
    delimited (lift n _) fun _ => .expected (P := fun _ _ => True)
  cases o with
  | none => exact hother
  | some t =>
    cases t with
    | keyword w =>
      cases doc <;> cases w <;> first | exact hfunction | exact hclassDef | exact hbinding | exact hother
    | _ => exact hother

omit hexpr hstmt in
theorem classDef : ∀ {k n : Nat} (doc : Option String), Agrees n (level · 1) expr →
    Agrees (n - 1) Attempt.statement stmt → n ≤ k →
    Agrees n (Attempt.classDef · doc) (Reader.classDef expr stmt k doc)
  | 0, n, _, _, _, hk => of_le_zero hk
  | k + 1, n, doc, hexpr, hstmt, hk => by
    have hpassNested := Passes.classDef hpass hitem k
    have hpassItem := Passes.classItem hpass hitem hpassNested k
    -- what is left for the items when the keyword, the name and the brace have been passed
    have hn : n - 1 - 1 - 1 ≤ n := by omega
    have hk' : n - 1 - 1 - 1 ≤ k := by omega
    have hstmt' := hstmt.mono (show n - 1 - 1 - 1 - 1 ≤ n - 1 by omega)
    have hnested := fun doc => classDef doc (hexpr.mono hn) hstmt' hk'
    have hclassItem := classItem (hexpr.mono hn) hpass hstmt' hitem hnested hpassNested hk'
    have hitems := untilSign classItems_succ hclassItem hpassItem (fun h => h.1.ne_nil) hk'
    rw [Reader.classDef_succ]
    refine deeper (expect fun start => ident fun x => ?_)
    refine (bases (hexpr.mono (by omega)) hpass (by omega)).keep (Passes.bases hpass k) fun es => ?_
    have hpassItems := Passes.untilSign (t := .sign .rightBrace) (L := fun _ _ => True) hpassItem trivial
      (fun _ _ => trivial) k
    exact expect fun _ => hitems.keep hpassItems fun body => expectAs fun _ => last fun stop => pure

theorem undelimited (hk : n ≤ k) (doc : Option String) :
    Agrees n (Attempt.undelimited · doc) (Reader.undelimited expr stmt k doc) := by
  have hfunction := function hexpr hpass hstmt hitem hk doc
  have hclassDef := classDef hpass hitem doc hexpr hstmt hk
  have hbinding := binding hexpr hpass
  have hleaving := leaving hexpr hpass
  have hraising := raising hexpr hpass
  have hbranching := branching hpass hitem hexpr hstmt hk
  have hassignment := assignment hexpr hpass
  refine deeper (peek fun o => ?_)
  cases doc with
  | none =>
    cases o with
    | none => exact hassignment
    | some t =>
      cases t with
      | keyword w =>
        cases w <;> first
          | exact hfunction | exact hclassDef | exact hbinding | exact hleaving | exact hraising
          | exact hbranching | exact hassignment
      | _ => exact hassignment
  | some text =>
    cases o with
    | none => exact lift _ _
    | some t =>
      cases t with
      | keyword w => cases w <;> first | exact hfunction | exact hclassDef | exact lift _ _
      | _ => exact lift _ _

end Stmt

theorem statement : ∀ n, Agrees n Attempt.statement (Reader.statement n)
  | 0 => of_le_zero (Nat.le_refl 0)
  | n + 1 => by
    have hexpr := expression (n + 1)
    have hpass := Passes.expression (n + 1)
    have hitem := Passes.statement n
    refine deeper (docs fun doc => ?_)
    refine (undelimited hexpr hpass (statement n) hitem (Nat.le_refl _) doc).keep
      (Passes.undelimited hpass hitem (n + 1) doc) fun s => eat pure pure

/-! ## Units -/

theorem unit {n k : Nat} (hk : n ≤ k) (ss : List Stmt) :
    Agrees n (Attempt.unit · ss) (Reader.behind ss (Reader.untilEnd (Reader.statement n) k)) := by
  have hitem := Passes.statement n
  refine loop (f := fun k ss => Reader.behind ss (Reader.untilEnd (Reader.statement n) k))
    unit_succ (Reader.untilEnd_succ _) ?_ ?_ ss hk (Nat.le_refl n)
  · exact fun _ => Passes.untilEndLap hitem Part.From.ne_nil
  · exact fun _ _ ss _ hn => untilEndLap ((statement n).mono hn) hitem ss

end Attempt.Agrees

namespace Attempt

/-! ## Every call comes to an outcome -/

theorem advances_level (ℓ : Nat) : Advances (level · ℓ) := by
  refine .of_agrees fun n => ⟨_, (Agrees.ofLevel (.expression n) ℓ).mono (Nat.le_succ n), fun l => ?_⟩
  exact (Passes.ofLevel n ℓ l).imp fun _ _ => Expr.From.ne_nil

theorem advances_primary : Advances primary := by
  refine .of_agrees fun n => ?_
  have hpass := Passes.expression n
  have hagrees := Agrees.primary (.expression n) hpass
  exact ⟨_, hagrees.mono (Nat.le_succ n), fun l => (Passes.primary hpass l).imp fun _ _ => Expr.From.ne_nil⟩

theorem advances_statement : Advances statement :=
  .of_agrees fun n => ⟨_, .statement n, fun l => (Passes.statement n l).imp fun _ _ => Part.From.ne_nil⟩

theorem loops_operators (ℓ : Nat) :
    Loops (operators · ℓ) fun d => Lap.operator (BinaryOp.atLevel? ℓ) (level d (ℓ + 1)) := by
  refine .of_returns (operators_succ · ℓ) fun left => .of_agrees fun n => ?_
  have hpass := Passes.ofLevel n (ℓ + 1)
  have hagrees := (Agrees.ofLevel (.expression n) (ℓ + 1)).mono (Nat.le_succ n)
  exact ⟨_, hagrees.operatorLap hpass left, Passes.operatorLap hpass left⟩

theorem loops_trailers : Loops trailers fun d => Lap.trailer (arguments d) := by
  refine .of_returns trailers_succ fun e => .of_agrees fun n => ?_
  have hpass := Passes.expression n
  have hagrees := (Agrees.arguments (.expression n) hpass (Nat.le_refl n)).mono (Nat.sub_le n 1)
  exact ⟨_, hagrees.trailerLap (Passes.arguments hpass n) e, Passes.trailerLap (Passes.arguments hpass n) e⟩

theorem loops_argumentsFrom :
    Loops argumentsFrom fun d => Lap.separated (.sign .rightParen) fun _ => level d 1 := by
  refine .of_returns argumentsFrom_succ fun es => .of_agrees fun n => ?_
  have hpass := fun _ : List Expr => Passes.expression n
  exact ⟨_, .separatedLap (fun _ => .expression n) hpass es, Passes.separatedLap hpass es⟩

theorem loops_params : Loops params fun d => Lap.separated (.sign .rightParen) (param d) := by
  refine .of_returns params_succ fun ps => .of_agrees fun n => ?_
  have hpass := Passes.expression n
  have hparam := fun ps : List Param => Passes.param hpass (ps.any (·.default.isSome))
  have hpassParam := fun (ps : List Param) l => (hparam ps l).imp fun _ _ h => h.1
  have hagrees := fun ps => Agrees.param (.expression n) hpass ps
  exact ⟨_, .separatedLap hagrees hpassParam ps, Passes.separatedLap hpassParam ps⟩

theorem loops_statements : Loops statements fun d => Lap.untilSign (.sign .rightBrace) (statement d) := by
  refine .of_returns statements_succ fun ss => .of_agrees fun n => ?_
  have hitem := Passes.statement n
  exact ⟨_, .untilSignLap (.statement n) hitem ss, Passes.untilSignLap hitem Part.From.ne_nil ss⟩

theorem loops_classItems : Loops classItems fun d => Lap.untilSign (.sign .rightBrace) (classItem d) := by
  refine .of_returns classItems_succ fun ss => .of_agrees fun n => ?_
  have hexpr := Agrees.expression n
  have hpass := Passes.expression n
  have hstmt := (Agrees.statement n).mono (Nat.sub_le n 1)
  have hitem := Passes.statement n
  have hnested := fun doc => Agrees.classDef hpass hitem doc hexpr hstmt (Nat.le_refl n)
  have hpassNested := Passes.classDef hpass hitem n
  have hagrees := Agrees.classItem hexpr hpass hstmt hitem hnested hpassNested (Nat.le_refl n)
  have hpassItem := Passes.classItem hpass hitem hpassNested n
  exact ⟨_, hagrees.untilSignLap hpassItem ss, Passes.untilSignLap hpassItem (fun h => h.1.ne_nil) ss⟩

theorem loops_unit : Loops unit fun d => Lap.untilEnd (statement d) := by
  refine .of_returns unit_succ fun ss => .of_agrees fun n => ?_
  have hitem := Passes.statement n
  exact ⟨_, .untilEndLap (.statement n) hitem ss, Passes.untilEndLap hitem Part.From.ne_nil ss⟩

/-- Reading a unit comes to what the bounded reader comes to. A result is that of all tokens; a failure stands
at the token that its fault names. -/
theorem comes_unit (tokens : List PlacedToken) :
    ∃ c, Comes (unit · []) ⟨.dummy, tokens⟩ (CodeUnit.ofTokens? tokens, c) ∧ (∃ ts, tokens = ts ++ c.rest) ∧
      match CodeUnit.ofTokens? tokens with
      | .ok _ => c.rest = []
      | .error e => e.Stands c.rest := by
  have hitem := Passes.statement (tokens.length + 1)
  have hpass := Passes.untilEnd (L := Part.From .items) hitem .nil .cons (tokens.length + 1) .dummy
  have hcome := Agrees.unit (Nat.le_refl (tokens.length + 1)) [] ⟨.dummy, tokens⟩ (Nat.lt_succ_self _)
  rw [Reader.behind_nil] at hcome
  cases hrun : Reader.untilEnd (Reader.statement (tokens.length + 1)) (tokens.length + 1) ⟨.dummy, tokens⟩ with
  | ok body c =>
    obtain ⟨ts, hts, -, -⟩ := hpass.of_ok hrun
    rw [Reader.outcome_of_ok hrun] at hcome
    have heq : CodeUnit.ofTokens? tokens = .ok body := by
      unfold CodeUnit.ofTokens?
      simp only [hrun]
    rw [heq]
    exact ⟨c, hcome, ⟨ts, hts⟩, Reader.rest_of_untilEnd hitem Part.From.ne_nil (Nat.lt_succ_self _) hrun⟩
  | error e c =>
    obtain ⟨hts, he⟩ := hpass.of_error hrun
    rw [Reader.outcome_of_error hrun] at hcome
    have heq : CodeUnit.ofTokens? tokens = .error e := by
      unfold CodeUnit.ofTokens?
      simp only [hrun]
    rw [heq]
    exact ⟨c, hcome, hts, he⟩

/-- Whatever the tokens are, reading a unit without a bound on the tokens comes to a result or a fault, which
is that of the bounded reader. Every statement, and every expression of a level, comes to an outcome and
has passed a token if it is read; every lap of a loop has passed a token or leaves the loop; and a failure
ends the loop, and all that the reader that fails is a part of. -/
theorem reading_ends :
    (∀ tokens, ∃ c, Comes (unit · []) ⟨.dummy, tokens⟩ (CodeUnit.ofTokens? tokens, c) ∧
      (∃ ts, tokens = ts ++ c.rest) ∧
      match CodeUnit.ofTokens? tokens with
      | .ok _ => c.rest = []
      | .error e => e.Stands c.rest) ∧
    Advances statement ∧ (∀ ℓ, Advances (level · ℓ)) ∧ Advances primary ∧
    Loops unit (fun d => Lap.untilEnd (statement d)) ∧
    Loops statements (fun d => Lap.untilSign (.sign .rightBrace) (statement d)) ∧
    Loops classItems (fun d => Lap.untilSign (.sign .rightBrace) (classItem d)) ∧
    Loops params (fun d => Lap.separated (.sign .rightParen) (param d)) ∧
    Loops argumentsFrom (fun d => Lap.separated (.sign .rightParen) fun _ => level d 1) ∧
    (∀ ℓ, Loops (operators · ℓ) fun d => Lap.operator (BinaryOp.atLevel? ℓ) (level d (ℓ + 1))) ∧
    Loops trailers (fun d => Lap.trailer (arguments d)) ∧
    ∀ {α β : Type} {m : Nat → Attempt α} {c c' : Cursor} {e : SyntaxError}, Comes m c (.error e, c') →
      ∀ f : Nat → α → Attempt β, Comes (fun d => m d >>= f d) c (.error e, c') := by
  refine ⟨comes_unit, advances_statement, advances_level, advances_primary, loops_unit, loops_statements,
    loops_classItems, loops_params, loops_argumentsFrom, loops_operators, loops_trailers, ?_⟩
  exact fun he _ => he.bind_error

end Attempt

end LivePatch
