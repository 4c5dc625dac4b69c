/-
Every reading is a derivation: what the readers of expressions, parameters and statements make of the
tokens they pass comes from these tokens. The readers of a level are given one for the expressions in
brackets, and those of statements one for the statements in braces, so that the proofs follow the readers
and the bounds are used for nothing but the induction.
-/
import LivePatch.Proofs.Syntax.Passing
import LivePatch.Proofs.Syntax.Statement

namespace LivePatch

open PlacedToken (lastSpan)

/-! ## Operators -/

namespace BinaryOp

/-- An operator of a level is found at its own token only. -/
theorem token_of_atLevel? {ℓ : Nat} {t : Token} {op : BinaryOp} (h : atLevel? ℓ t = some op) :
    t = op.token := by
  unfold atLevel? at h
  split at h
  · unfold ofDisjunction? at h
    split at h <;> cases h
    rfl
  · unfold ofConjunction? at h
    split at h <;> cases h
    rfl
  · unfold ofComparison? at h
    split at h <;> cases h <;> rfl
  · unfold ofSum? at h
    split at h <;> cases h <;> rfl
  · unfold ofProduct? at h
    split at h <;> cases h <;> rfl
  · cases h

end BinaryOp

/-! ## Expressions -/

namespace Passes

section Expression

variable {expr operand : Reader Expr} {l : Span}

theorem chainFrom {op? : Token → Option BinaryOp} (hop : ∀ t op, op? t = some op → t = op.token)
    (hr : ∀ l, Passes l operand Expr.From) : ∀ (n : Nat) {l : Span} {ts : List PlacedToken} {left : Expr},
    Expr.From ts left →
      Passes l (Reader.chainFrom op? operand n left) fun us e => Expr.From (ts ++ us) e
  | 0, l, ts, left, hleft => .pure (by simpa using hleft)
  | n + 1, l, ts, left, hleft => by
    unfold Reader.chainFrom
    refine .operator (.pure (by simpa using hleft)) fun sign op hsign => ?_
    refine .bind (hr _) fun us right hright => ?_
    exact (chainFrom hop hr n (.binary hleft (hop _ _ hsign) hright)).imp fun vs e he => by simpa using he

theorem chain {op? : Token → Option BinaryOp} (hop : ∀ t op, op? t = some op → t = op.token)
    (hr : ∀ l, Passes l operand Expr.From) (n : Nat) (l : Span) :
    Passes l (Reader.chain op? operand n) Expr.From :=
  .bind (hr l) fun _ _ hleft => chainFrom hop hr n hleft

theorem led (op : UnaryOp) (hr : ∀ l, Passes l operand Expr.From) : ∀ (n : Nat) (l : Span),
    Passes l (Reader.led op.token op operand n) Expr.From
  | 0, _ => .expected
  | n + 1, l => by
    unfold Reader.led
    refine .at? fun b => .ite (fun _ => .expect fun sign hsign => ?_) fun _ => hr l
    exact .bind (led op hr n _) fun ts e he => .pure (by simpa using .unary hsign he)

theorem compared (hr : ∀ l, Passes l operand Expr.From) (l : Span) :
    Passes l (Reader.compared operand) Expr.From := by
  refine .bind (hr l) fun ts left hleft => ?_
  refine .operator (.pure (by simpa using hleft)) fun sign op hsign => ?_
  exact .bind (hr _) fun us right hright =>
    .pure (by simpa using .binary hleft (BinaryOp.token_of_atLevel? (ℓ := 4) hsign) hright)

variable (hexpr : ∀ l, Passes l expr Expr.From)

include hexpr

theorem arguments (n : Nat) (l : Span) : Passes l (Reader.arguments expr n) fun ts es =>
    ∃ us closing, ts = us ++ [closing] ∧ Expr.AllFrom us es ∧ closing.token = .sign .rightParen := by
  refine .bind (P := Expr.AllFrom) (.separated hexpr .nil .last .cons n l) fun us es hes => ?_
  exact .expect fun closing hc => .pure ⟨us, closing, rfl, hes, hc⟩

theorem primary (l : Span) : Passes l (Reader.primary expr) Expr.From := by
  have hleaf : ∀ {p : PlacedToken} {e : Expr} (rest : List PlacedToken), Expr.leaf? p = some e →
      Passed l (p :: rest) Expr.From (.ok e ⟨p.span, rest⟩) := fun rest he => ⟨[_], rfl, rfl, .leaf he⟩
  have hbracketed : ∀ s : Span, Passes s (do
      let inner ← expr
      let close ← Reader.expect (.sign .rightParen)
      return inner.withSpan (s.merge close)) fun ts e => Expr.From (⟨.sign .leftParen, s⟩ :: ts) e :=
    fun s => .bind (hexpr s) fun ts e he => .expect fun closing hc => .pure (.bracketed rfl he hc)
  intro rest
  cases rest with
  | nil => exact .fault rfl trivial
  | cons p rest =>
    obtain ⟨t, s⟩ := p
    cases t with
    | int | str | ident => exact hleaf rest rfl
    | doc => exact .fault rfl trivial
    | keyword k => cases k <;> first | exact hleaf rest rfl | exact .fault rfl trivial
    | sign g =>
      cases g with
      | leftParen => exact (hbracketed s rest).behind [⟨.sign .leftParen, s⟩]
      | _ => exact .fault rfl trivial

theorem trailersFrom : ∀ (n : Nat) {l : Span} {ts : List PlacedToken} {e : Expr}, Expr.From ts e →
    Passes l (Reader.trailersFrom expr n e) fun us e' => Expr.From (ts ++ us) e'
  | 0, l, ts, e, he => .pure (by simpa using he)
  | n + 1, l, ts, e, he => by
    unfold Reader.trailersFrom
    refine .eat_ite (fun opening ho => ?_) (.eat_ite (fun dot hd => ?_) (.pure (by simpa using he)))
    · refine .bind (arguments hexpr n _) ?_
      rintro _ es ⟨us, closing, rfl, hes, hc⟩
      refine .last ?_
      rw [PlacedToken.lastSpan_append]
      exact (trailersFrom n (.call he ho hes hc)).imp fun vs e' he' => by simpa using he'
    · refine .ident fun name x hx => ?_
      exact (trailersFrom n (.attr he hd hx)).imp fun vs e' he' => by simpa using he'

theorem trailed (n : Nat) (l : Span) : Passes l (Reader.trailed expr n) Expr.From :=
  .bind (primary hexpr l) fun _ _ he => trailersFrom hexpr n he

theorem signed (n : Nat) (l : Span) : Passes l (Reader.signed expr n) Expr.From :=
  led .neg (trailed hexpr n) n l

theorem product (n : Nat) (l : Span) : Passes l (Reader.product expr n) Expr.From :=
  chain (fun _ _ => BinaryOp.token_of_atLevel? (ℓ := 6)) (signed hexpr n) n l

theorem sum (n : Nat) (l : Span) : Passes l (Reader.sum expr n) Expr.From :=
  chain (fun _ _ => BinaryOp.token_of_atLevel? (ℓ := 5)) (product hexpr n) n l

theorem negated (n : Nat) (l : Span) : Passes l (Reader.negated expr n) Expr.From :=
  led .not (compared (sum hexpr n)) n l

theorem conjunction (n : Nat) (l : Span) : Passes l (Reader.conjunction expr n) Expr.From :=
  chain (fun _ _ => BinaryOp.token_of_atLevel? (ℓ := 2)) (negated hexpr n) n l

theorem disjunction (n : Nat) (l : Span) : Passes l (Reader.disjunction expr n) Expr.From :=
  chain (fun _ _ => BinaryOp.token_of_atLevel? (ℓ := 1)) (conjunction hexpr n) n l

end Expression

theorem expression : ∀ (n : Nat) (l : Span), Passes l (Reader.expression n) Expr.From
  | 0, _ => .expected
  | n + 1, l => disjunction (expression n) (n + 1) l

end Passes

/-! ## Parameters -/

/-- Once a parameter has a default, all later ones have one: `defaulted` says whether one before these
had. -/
def Param.ordered (defaulted : Bool) (ps : List Param) : Bool :=
  if defaulted then ps.all (·.default.isSome) else Spelling.defaultsLast ps

theorem Param.ordered_nil (defaulted : Bool) : ordered defaulted [] = true := by
  cases defaulted <;> rfl

theorem Param.ordered_cons (defaulted : Bool) (p : Param) (ps : List Param) :
    ordered defaulted (p :: ps) =
      ((!defaulted || p.default.isSome) && ordered (defaulted || p.default.isSome) ps) := by
  cases defaulted with
  | true => rfl
  | false => exact (Bool.true_and _).symm

namespace Passes

variable {expr : Reader Expr} {stmt : Reader Stmt} {l : Span}

section Param

variable (hexpr : ∀ l, Passes l expr Expr.From)

include hexpr

theorem param (defaulted : Bool) (l : Span) : Passes l (Reader.param expr defaulted) fun ts p =>
    Param.From ts p ∧ (!defaulted || p.default.isSome) = true := by
  refine .ident_passed fun name x us hx => .eat [name] (fun equal vs hequal => ?_) fun vs => ?_
  · refine Passed.behind [name, equal] (Passes.bind (hexpr _) (fun ts e he => .pure ⟨?_, Bool.or_true _⟩) vs)
    simpa using .defaulted hx hequal he
  · cases defaulted with
    | true => exact .blame ⟨[], by rw [← hx]; rfl⟩ trivial
    | false => exact .behind [name] (Passes.pure ⟨.plain hx, rfl⟩ vs)

theorem params : ∀ (defaulted : Bool) (n : Nat) (l : Span),
    Passes l (Reader.params expr defaulted n) fun ts ps =>
      Param.AllFrom ts ps ∧ Param.ordered defaulted ps = true
  | defaulted, 0, _ => .pure ⟨.nil, Param.ordered_nil defaulted⟩
  | defaulted, n + 1, l => by
    rw [Reader.params_succ]
    refine .at? fun b => .ite (fun _ => .pure ⟨.nil, Param.ordered_nil defaulted⟩) fun _ => ?_
    refine .bind (param hexpr defaulted l) ?_
    rintro ts p ⟨hp, hordered⟩
    refine .eat_ite (fun comma hc => ?_) (.pure ⟨by simpa using .last hp, ?_⟩)
    · refine .bind (params (defaulted || p.default.isSome) n _) ?_
      rintro us ps ⟨hps, hrest⟩
      refine .pure ⟨by simpa using .cons hp hc hps, ?_⟩
      rw [Param.ordered_cons, hordered, hrest]
      rfl
    · rw [Param.ordered_cons, hordered, Param.ordered_nil]
      rfl

end Param

/-! ## Statements -/

section Stmt

variable (hexpr : ∀ l, Passes l expr Expr.From)

section Simple

include hexpr

theorem binding (l : Span) : Passes l (Reader.binding expr) fun ts s =>
    Part.From .statement ts [s] ∧ s.doc? = none ∧ s.isClassItem = true := by
  refine .expect fun start hstart => .ident fun name x hx => .expect fun equal hequal => ?_
  exact .bind (hexpr _) fun ts e he => .pure ⟨by simpa using .bind hstart hx hequal he, rfl, rfl⟩

theorem leaving (l : Span) : Passes l (Reader.leaving expr) fun ts s =>
    Part.From .statement ts [s] ∧ s.doc? = none := by
  refine .expect fun start hstart => .peek fun o => ?_
  split
  · exact .pure ⟨.leaveNothing hstart, rfl⟩
  · exact .pure ⟨.leaveNothing hstart, rfl⟩
  · exact .pure ⟨.leaveNothing hstart, rfl⟩
  · exact .bind (hexpr _) fun ts e he => .pure ⟨by simpa using .leave hstart he, rfl⟩

theorem raising (l : Span) : Passes l (Reader.raising expr) fun ts s =>
    Part.From .statement ts [s] ∧ s.doc? = none :=
  .expect fun _ hstart => .bind (hexpr _) fun _ _ he => .pure ⟨by simpa using .raise hstart he, rfl⟩

theorem assignment (l : Span) : Passes l (Reader.assignment expr) fun ts s =>
    Part.From .statement ts [s] ∧ s.doc? = none := by
  refine .bind_passed (hexpr l) fun ts target us ht => .eat ts (fun equal vs hequal => ?_) fun vs => ?_
  · rw [List.append_cons]
    cases htarget : target.isTarget with
    | true =>
      refine .behind (ts ++ [equal]) ?_
      rw [PlacedToken.lastSpan_append]
      refine Passes.bind (hexpr _) (fun us value hv => .pure ⟨?_, rfl⟩) vs
      simpa using .assign ht htarget hequal hv
    | false => exact .blame ⟨[], ts, equal, target, rfl, ht, hequal, htarget, rfl⟩ trivial
  · exact .behind ts (Passes.pure ⟨by simpa using .expr ht, rfl⟩ vs)

theorem bases (n : Nat) (l : Span) : Passes l (Reader.bases expr n) Expr.BasesFrom := by
  refine .eat_ite (fun opening ho => (arguments hexpr n _).imp ?_) (.pure .none)
  rintro _ es ⟨us, closing, rfl, hes, hc⟩
  exact .some ho hes hc

end Simple

variable (hstmt : ∀ l, Passes l stmt fun ts s => Part.From .item ts [s])

include hstmt

theorem block (n : Nat) (l : Span) : Passes l (Reader.block stmt n) (Part.From .block) := by
  refine .expect fun opening ho => ?_
  refine .bind (P := Part.From .items) (.untilSign hstmt .nil .cons n _) fun ts ss hss => ?_
  exact .expect fun closing hc => .pure (.block ho hss hc)

include hexpr

theorem bodyOf (n : Nat) (l : Span) : Passes l (Reader.bodyOf expr stmt n) (Part.From .body) := by
  refine .eat_ite (fun equal hequal => ?_) ((block hstmt n l).imp fun _ _ => .body)
  exact .bind (hexpr _) fun ts e he => .pure (by simpa using .shortBody hequal he)

theorem function (n : Nat) (doc : Option String) (l : Span) :
    Passes l (Reader.function expr stmt n doc) fun ts s =>
      Part.From .statement ts [s] ∧ s.doc? = doc ∧ s.isClassItem = true := by
  rw [Reader.function_eq]
  refine .expect fun start hstart => .ident fun name x hx => .expect fun opening ho => ?_
  refine .bind (params hexpr false n _) ?_
  rintro ts ps ⟨hps, hlast⟩
  refine .expect fun closing hc => .bind (bodyOf hexpr hstmt n _) fun us body hbody => .last ?_
  rw [PlacedToken.lastSpan_of_ne_nil hbody.ne_nil_of_body closing.span start.span]
  exact .pure ⟨by simpa using .function doc hstart hx ho hps hlast hc hbody, rfl, rfl⟩

omit hexpr in
/-- A choice is read by a reader that calls itself for a choice in its second block. -/
theorem otherwise {n : Nat}
    (hbranch : ∀ l, Passes l (Reader.branching expr stmt n) fun ts s =>
      Part.From .statement ts [s] ∧ s.doc? = none) (l : Span) :
    Passes l (Reader.otherwise expr stmt n) (Part.From .otherwise) := by
  refine .eat_ite (fun word hword => .at? fun b => .ite (fun _ => ?_) fun _ => ?_) (.pure .noOtherwise)
  · exact .bind (hbranch _) fun ts s hs => .pure (by simpa using .chained hword hs.1 hs.2)
  · exact (block hstmt n _).imp fun _ _ => .otherwise hword

theorem branching : ∀ (n : Nat) (l : Span), Passes l (Reader.branching expr stmt n) fun ts s =>
    Part.From .statement ts [s] ∧ s.doc? = none
  | 0, _ => .expected
  | n + 1, l => by
    rw [Reader.branching_succ]
    refine .expect fun start hstart => .bind (hexpr _) fun ts cond hcond => ?_
    refine .bind (block hstmt n _) fun us whenTrue ht => ?_
    refine .bind (otherwise hstmt (branching n) _) fun vs whenFalse hf => .last ?_
    rw [← PlacedToken.lastSpan_append, PlacedToken.lastSpan_of_ne_nil
      (List.append_ne_nil_of_left_ne_nil ht.ne_nil_of_block vs) _ start.span]
    exact .pure ⟨by simpa using Part.From.branch hstart hcond ht hf, rfl⟩

omit hexpr hstmt in
/-- A statement with its doc text and its semicolon. -/
theorem delimited {ds : List PlacedToken} {doc : Option String} {r : Reader Stmt} {K : Stmt → Prop}
    (hd : DocFrom ds doc)
    (hr : Passes l r fun ts s => Part.From .statement ts [s] ∧ s.doc? = doc ∧ K s) :
    Passes l (Reader.delimited r) fun ts s => Part.From .item (ds ++ ts) [s] ∧ K s := by
  refine .bind hr ?_
  rintro ts s ⟨hs, rfl, hK⟩
  refine .eat (fun p hp => .pure ⟨?_, hK⟩) (.pure ⟨?_, hK⟩)
  · exact .item hd hs (.inr ⟨p, hp, rfl⟩)
  · exact .item hd hs (.inl rfl)

theorem classItem {nested : Option String → Reader Stmt}
    (hnested : ∀ doc l, Passes l (nested doc) fun ts s =>
      Part.From .statement ts [s] ∧ s.doc? = doc ∧ s.isClassItem = true) (n : Nat) (l : Span) :
    Passes l (Reader.classItem expr stmt nested n) fun ts s =>
      Part.From .item ts [s] ∧ s.isClassItem = true := by
  refine .bind .docs fun ds doc hd => .peek fun o => ?_
  dsimp only
  split
  · exact delimited hd (function hexpr hstmt n doc _)
  · exact delimited hd (hnested doc _)
  · exact delimited hd (binding hexpr _)
  · exact delimited hd .expected

theorem classDef : ∀ (n : Nat) (doc : Option String) (l : Span),
    Passes l (Reader.classDef expr stmt n doc) fun ts s =>
      Part.From .statement ts [s] ∧ s.doc? = doc ∧ s.isClassItem = true
  | 0, _, _ => .expected
  | n + 1, doc, l => by
    rw [Reader.classDef_succ]
    refine .expect fun start hstart => .ident fun name x hx => ?_
    refine .bind (bases hexpr n _) fun ts es hes => .expect fun opening ho => ?_
    refine .bind (P := fun us body => Part.From .items us body ∧ ∀ s ∈ body, s.isClassItem = true)
      (.untilSign (classItem hexpr hstmt (classDef n) n) ⟨.nil, by simp⟩ ?_ n _) ?_
    · rintro us vs s ss ⟨hs, hitem⟩ ⟨hss, hitems⟩
      exact ⟨.cons hs hss, by simpa using ⟨hitem, hitems⟩⟩
    · rintro us body ⟨hbody, hitems⟩
      refine .expectAs fun closing hc => .last (.pure ⟨?_, rfl, rfl⟩)
      simpa using .classDef doc hstart hx hes ho hbody hitems hc

theorem undelimited (n : Nat) (doc : Option String) (l : Span) :
    Passes l (Reader.undelimited expr stmt n doc) fun ts s =>
      Part.From .statement ts [s] ∧ s.doc? = doc := by
  refine .peek fun o => ?_
  split
  · exact (function hexpr hstmt n doc l).imp fun _ _ h => ⟨h.1, h.2.1⟩
  · exact (classDef hexpr hstmt n doc l).imp fun _ _ h => ⟨h.1, h.2.1⟩
  · exact .expected
  · exact (binding hexpr l).imp fun _ _ h => ⟨h.1, h.2.1⟩
  · exact leaving hexpr l
  · exact raising hexpr l
  · exact branching hexpr hstmt n l
  · exact assignment hexpr l

end Stmt

theorem statement : ∀ (n : Nat) (l : Span),
    Passes l (Reader.statement n) fun ts s => Part.From .item ts [s]
  | 0, _ => .expected
  | n + 1, l => by
    refine .bind .docs fun ds doc hd => (delimited (K := fun _ => True) hd ?_).imp fun _ _ h => h.1
    exact (undelimited (expression (n + 1)) (statement n) (n + 1) doc _).imp fun _ _ h => ⟨h.1, h.2, trivial⟩

end Passes

/-! ## Units -/

/-- Items that pass something are read to the end of input, when the bound exceeds the number of
tokens. -/
theorem Reader.rest_of_untilEnd {α : Type} {item : Reader α} {P : List PlacedToken → α → Prop}
    (hitem : ∀ l, Passes l item P) (hpasses : ∀ {ts a}, P ts a → ts ≠ []) : ∀ {n : Nat} {l : Span}
    {rest : List PlacedToken} {as : List α} {c : Cursor}, rest.length < n →
    untilEnd item n ⟨l, rest⟩ = .ok as c → c.rest = []
  | n + 1, l, [], as, c, _, h => by
    cases h
    rfl
  | n + 1, l, p :: rest, as, c, hn, h => by
    obtain ⟨a, ⟨l', rest'⟩, ha, h⟩ := bind_ok (x := item) h
    obtain ⟨as', c', has, h⟩ := bind_ok h
    cases h
    obtain ⟨ts, hts, -, hP⟩ := (hitem l).of_ok ha
    have hlength : (p :: rest).length = (ts ++ rest').length := congrArg List.length hts
    rw [List.length_append, List.length_cons] at hlength
    have hpos := List.length_pos_of_ne_nil (hpasses hP)
    rw [List.length_cons] at hn
    exact rest_of_untilEnd hitem hpasses (show rest'.length < n by omega) has

namespace CodeUnit

/-- Statements that are read from tokens come from all of them. -/
theorem from_of_ofTokens? {tokens : List PlacedToken} {body : List Stmt} (h : ofTokens? tokens = .ok body) :
    Part.From .items tokens body := by
  have hstmt := Passes.statement (tokens.length + 1)
  unfold ofTokens? at h
  dsimp only at h
  split at h
  · rename_i body c hrun
    cases h
    obtain ⟨ts, hts, -, hbody⟩ :=
      (Passes.untilEnd (L := Part.From .items) hstmt .nil .cons _ _).of_ok hrun
    rw [Reader.rest_of_untilEnd hstmt Part.From.ne_nil (Nat.lt_succ_self _) hrun, List.append_nil] at hts
    rwa [hts]
  · cases h

/-- A unit that is read from a source text comes from the tokens of the text. -/
theorem from_of_parse {source origin : String} {u : CodeUnit} (h : parse source origin = .ok u) :
    ∃ tokens, Token.scan source = .ok tokens ∧ Part.From .items tokens u.body := by
  unfold parse at h
  split at h
  · cases h
  · obtain ⟨body, hbody, rfl⟩ := except_map_eq_ok h
    exact ⟨_, ‹_›, from_of_ofTokens? hbody⟩

end CodeUnit

end LivePatch
