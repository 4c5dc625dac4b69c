/-
How trees come from tokens: the grammar as a relation, with a rule for each form of an expression, of a
parameter and of a statement. The places of a tree are merged from those of its tokens and of its parts,
so that a derivation determines the tree with all its places. Which of two operators holds tighter is no
matter of the relation: what is said of every derivation is said of every reading.
-/
import LivePatch.Syntax.Spelling
import LivePatch.Syntax.Statement

namespace LivePatch

namespace PlacedToken

/-- The span of the last of some tokens, or the given one if there is none. -/
def lastSpan (last : Span) : List PlacedToken → Span
  | [] => last
  | p :: ps => lastSpan p.span ps

@[simp] theorem lastSpan_append (last : Span) (ps qs : List PlacedToken) :
    lastSpan last (ps ++ qs) = lastSpan (lastSpan last ps) qs := by
  induction ps generalizing last with
  | nil => rfl
  | cons p ps ih => exact ih p.span

/-- If there are some, it does not matter what stands before them. -/
theorem lastSpan_of_ne_nil {ps : List PlacedToken} (h : ps ≠ []) (last last' : Span) :
    lastSpan last ps = lastSpan last' ps := by
  cases ps with
  | nil => exact absurd rfl h
  | cons p ps => rfl

end PlacedToken

open PlacedToken (lastSpan)

/-! ## Expressions -/

/-- The expression that a token is by itself: a literal or a name. -/
def Expr.leaf? (p : PlacedToken) : Option Expr :=
  match p.token with
  | .int n => some (.int n p.span)
  | .str text => some (.str text p.span)
  | .keyword .true => some (.bool true p.span)
  | .keyword .false => some (.bool false p.span)
  | .keyword .none => some (.none p.span)
  | .ident x => some (.ident x p.span)
  | _ => Option.none

/-- What holds of every token that is an expression by itself. -/
@[elab_as_elim]
theorem Expr.leaf?_cases {P : PlacedToken → Expr → Prop} {p : PlacedToken} {e : Expr}
    (he : leaf? p = some e) (int : ∀ n s, P ⟨.int n, s⟩ (.int n s))
    (str : ∀ text s, P ⟨.str text, s⟩ (.str text s))
    (true : ∀ s, P ⟨.keyword .true, s⟩ (.bool true s)) (false : ∀ s, P ⟨.keyword .false, s⟩ (.bool false s))
    (none : ∀ s, P ⟨.keyword .none, s⟩ (.none s)) (ident : ∀ x s, P ⟨.ident x, s⟩ (.ident x s)) : P p e := by
  obtain ⟨t, s⟩ := p
  cases t with
  | int n =>
    cases he
    exact int n s
  | str text =>
    cases he
    exact str text s
  | ident x =>
    cases he
    exact ident x s
  | keyword k => cases k <;> cases he <;> first | exact true s | exact false s | exact none s
  | doc | sign => cases he

mutual

/-- The expression comes from the tokens. -/
inductive Expr.From : List PlacedToken → Expr → Prop
  | leaf {p : PlacedToken} {e : Expr} (he : leaf? p = some e) : From [p] e
  /-- Brackets give the expression their own place. -/
  | bracketed {opening closing : PlacedToken} {ts : List PlacedToken} {e : Expr}
      (ho : opening.token = .sign .leftParen) (he : From ts e) (hc : closing.token = .sign .rightParen) :
      From (opening :: (ts ++ [closing])) (e.withSpan (opening.span.merge closing.span))
  | attr {dot name : PlacedToken} {ts : List PlacedToken} {e : Expr} {x : Name} (he : From ts e)
      (hd : dot.token = .sign .dot) (hx : name.token = .ident x) :
      From (ts ++ [dot, name]) (.attr e x (e.span.merge name.span))
  | call {opening closing : PlacedToken} {ts us : List PlacedToken} {e : Expr} {es : List Expr}
      (he : From ts e) (ho : opening.token = .sign .leftParen) (hes : Expr.AllFrom us es)
      (hc : closing.token = .sign .rightParen) :
      From (ts ++ opening :: (us ++ [closing])) (.call e es (e.span.merge closing.span))
  | binary {sign : PlacedToken} {op : BinaryOp} {ts us : List PlacedToken} {l r : Expr} (hl : From ts l)
      (hop : sign.token = op.token) (hr : From us r) : From (ts ++ sign :: us) (.join op l r)
  | unary {sign : PlacedToken} {op : UnaryOp} {ts : List PlacedToken} {e : Expr}
      (hop : sign.token = op.token) (he : From ts e) : From (sign :: ts) (.lead op sign.span e)

/-- The expressions come from the tokens, with commas between them. A comma may follow the last one. -/
inductive Expr.AllFrom : List PlacedToken → List Expr → Prop
  | nil : AllFrom [] []
  | last {ts : List PlacedToken} {e : Expr} (he : Expr.From ts e) : AllFrom ts [e]
  | cons {comma : PlacedToken} {ts us : List PlacedToken} {e : Expr} {es : List Expr} (he : Expr.From ts e)
      (hc : comma.token = .sign .comma) (hes : AllFrom us es) : AllFrom (ts ++ comma :: us) (e :: es)

end

/-! ## Parameters -/

/-- The parameter comes from the tokens. -/
inductive Param.From : List PlacedToken → Param → Prop
  | plain {name : PlacedToken} {x : Name} (hx : name.token = .ident x) : From [name] ⟨x, none⟩
  | defaulted {name equal : PlacedToken} {ts : List PlacedToken} {x : Name} {e : Expr}
      (hx : name.token = .ident x) (hequal : equal.token = .sign .equal) (he : Expr.From ts e) :
      From (name :: equal :: ts) ⟨x, some e⟩

/-- The parameters come from the tokens, with commas between them. A comma may follow the last one. -/
inductive Param.AllFrom : List PlacedToken → List Param → Prop
  | nil : AllFrom [] []
  | last {ts : List PlacedToken} {p : Param} (hp : Param.From ts p) : AllFrom ts [p]
  | cons {comma : PlacedToken} {ts us : List PlacedToken} {p : Param} {ps : List Param}
      (hp : Param.From ts p) (hc : comma.token = .sign .comma) (hps : AllFrom us ps) :
      AllFrom (ts ++ comma :: us) (p :: ps)

/-! ## Statements -/

/-- The doc text comes from doc comments, one for each of its lines. -/
def DocFrom (ds : List PlacedToken) (doc : Option String) : Prop :=
  ∃ lines : List String, ds.map (·.token) = lines.map .doc ∧
    doc = if lines.isEmpty then none else some ("\n".intercalate lines)

/-- A semicolon, or nothing. -/
def Delimiter (ds : List PlacedToken) : Prop :=
  ds = [] ∨ ∃ p : PlacedToken, p.token = .sign .semicolon ∧ ds = [p]

/-- The bases of a class come from the tokens: expressions between brackets, or nothing. -/
inductive Expr.BasesFrom : List PlacedToken → List Expr → Prop
  | none : BasesFrom [] []
  | some {opening closing : PlacedToken} {ts : List PlacedToken} {es : List Expr}
      (ho : opening.token = .sign .leftParen) (hes : Expr.AllFrom ts es)
      (hc : closing.token = .sign .rightParen) : BasesFrom (opening :: (ts ++ [closing])) es

/-- The parts of a unit that consist of statements. -/
inductive Part where
  /-- One statement, without its doc text and its semicolon. -/
  | statement
  /-- One statement with its doc text before it and its semicolon behind it. -/
  | item
  /-- Items one behind the other. -/
  | items
  /-- Items between braces. -/
  | block
  /-- The body of a function: a block, or an expression that stands for its return. -/
  | body
  /-- The second block of a choice with the keyword before it, or nothing. -/
  | otherwise
  deriving DecidableEq, Repr

/-- The statements come from the tokens as a part of the kind. -/
inductive Part.From : Part → List PlacedToken → List Stmt → Prop
  | bind {start name equal : PlacedToken} {ts : List PlacedToken} {x : Name} {e : Expr}
      (hstart : start.token = .keyword .bind) (hx : name.token = .ident x)
      (hequal : equal.token = .sign .equal) (he : Expr.From ts e) :
      From .statement (start :: name :: equal :: ts) [.bind x e (start.span.merge e.span)]
  | assign {equal : PlacedToken} {ts us : List PlacedToken} {target value : Expr}
      (ht : Expr.From ts target) (htarget : target.isTarget = true) (hequal : equal.token = .sign .equal)
      (hv : Expr.From us value) :
      From .statement (ts ++ equal :: us) [.assign target value (target.span.merge value.span)]
  | expr {ts : List PlacedToken} {e : Expr} (he : Expr.From ts e) : From .statement ts [.expr e]
  | leaveNothing {start : PlacedToken} (hstart : start.token = .keyword .leave) :
      From .statement [start] [.leave none start.span]
  | leave {start : PlacedToken} {ts : List PlacedToken} {e : Expr} (hstart : start.token = .keyword .leave)
      (he : Expr.From ts e) : From .statement (start :: ts) [.leave (some e) (start.span.merge e.span)]
  | raise {start : PlacedToken} {ts : List PlacedToken} {e : Expr} (hstart : start.token = .keyword .raise)
      (he : Expr.From ts e) : From .statement (start :: ts) [.raise e (start.span.merge e.span)]
  | branch {start : PlacedToken} {ts us vs : List PlacedToken} {cond : Expr} {whenTrue whenFalse : List Stmt}
      (hstart : start.token = .keyword .branch) (hc : Expr.From ts cond) (ht : From .block us whenTrue)
      (hf : From .otherwise vs whenFalse) :
      From .statement (start :: (ts ++ (us ++ vs)))
        [.branch cond whenTrue whenFalse (start.span.merge (lastSpan start.span (us ++ vs)))]
  | function {start name opening closing : PlacedToken} {ts us : List PlacedToken} {x : Name}
      {ps : List Param} {body : List Stmt} (doc : Option String)
      (hstart : start.token = .keyword .function) (hx : name.token = .ident x)
      (ho : opening.token = .sign .leftParen) (hps : Param.AllFrom ts ps)
      (hlast : Spelling.defaultsLast ps = true) (hc : closing.token = .sign .rightParen)
      (hbody : From .body us body) :
      From .statement (start :: name :: opening :: (ts ++ closing :: us))
        [.function x ps body doc (start.span.merge (lastSpan start.span us))]
  | classDef {start name opening closing : PlacedToken} {ts us : List PlacedToken} {x : Name}
      {es : List Expr} {body : List Stmt} (doc : Option String)
      (hstart : start.token = .keyword .classDef) (hx : name.token = .ident x) (hes : Expr.BasesFrom ts es)
      (ho : opening.token = .sign .leftBrace) (hbody : From .items us body)
      (hitems : ∀ s ∈ body, s.isClassItem = true) (hc : closing.token = .sign .rightBrace) :
      From .statement (start :: name :: (ts ++ opening :: (us ++ [closing])))
        [.classDef x es body doc (start.span.merge closing.span)]
  | item {ds ts es : List PlacedToken} {s : Stmt} (hd : DocFrom ds s.doc?) (hs : From .statement ts [s])
      (he : Delimiter es) : From .item (ds ++ (ts ++ es)) [s]
  | nil : From .items [] []
  | cons {ts us : List PlacedToken} {s : Stmt} {ss : List Stmt} (hs : From .item ts [s])
      (hss : From .items us ss) : From .items (ts ++ us) (s :: ss)
  | block {opening closing : PlacedToken} {ts : List PlacedToken} {ss : List Stmt}
      (ho : opening.token = .sign .leftBrace) (hss : From .items ts ss)
      (hc : closing.token = .sign .rightBrace) : From .block (opening :: (ts ++ [closing])) ss
  | body {ts : List PlacedToken} {ss : List Stmt} (hss : From .block ts ss) : From .body ts ss
  | shortBody {equal : PlacedToken} {ts : List PlacedToken} {e : Expr} (hequal : equal.token = .sign .equal)
      (he : Expr.From ts e) : From .body (equal :: ts) [.leave (some e) e.span]
  | noOtherwise : From .otherwise [] []
  | otherwise {word : PlacedToken} {ts : List PlacedToken} {ss : List Stmt}
      (hword : word.token = .keyword .otherwise) (hss : From .block ts ss) : From .otherwise (word :: ts) ss
  | chained {word : PlacedToken} {ts : List PlacedToken} {s : Stmt}
      (hword : word.token = .keyword .otherwise) (hs : From .statement ts [s]) (hdoc : s.doc? = none) :
      From .otherwise (word :: ts) [s]

/-! ## Something is passed -/

/-- No expression comes from no token. -/
theorem Expr.From.ne_nil {ts : List PlacedToken} {e : Expr} (h : Expr.From ts e) : ts ≠ [] := by
  cases h <;> simp

theorem Part.From.ne_nil_of_statement {ts : List PlacedToken} {ss : List Stmt}
    (h : Part.From .statement ts ss) : ts ≠ [] := by
  cases h with
  | expr he => exact he.ne_nil
  | _ => simp

theorem Part.From.ne_nil_of_block {ts : List PlacedToken} {ss : List Stmt} (h : Part.From .block ts ss) :
    ts ≠ [] := by
  cases h with
  | block => simp

theorem Part.From.ne_nil_of_body {ts : List PlacedToken} {ss : List Stmt} (h : Part.From .body ts ss) :
    ts ≠ [] := by
  cases h with
  | body hss => exact hss.ne_nil_of_block
  | shortBody => simp

/-- No statement comes from no token. -/
theorem Part.From.ne_nil {ts : List PlacedToken} {ss : List Stmt} (h : Part.From .item ts ss) :
    ts ≠ [] := by
  cases h with
  | item _ hs _ => simp [hs.ne_nil_of_statement]

end LivePatch
