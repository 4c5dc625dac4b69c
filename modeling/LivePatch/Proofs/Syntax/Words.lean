/-
Nothing is lost in reading. The names, literals and operators of a tree, from left to right, are the tokens
of the text that stand for one, each in its place and as often as it stands there. What the tree does not
keep are the signs and keywords that give it its shape, and the doc comments.
-/
import LivePatch.Proofs.Syntax.Sound

namespace LivePatch

namespace Token

/-- Whether a token stands for a name, a literal or an operator. -/
def carries : Token → Bool
  | ident _ | int _ | str _ => true
  | keyword .true | keyword .false | keyword .none => true
  | keyword .and | keyword .or | keyword .not => true
  | sign .plus | sign .minus | sign .star | sign .slash | sign .percent => true
  | sign .equalEqual | sign .notEqual | sign .less | sign .lessEqual | sign .greater | sign .greaterEqual => true
  | keyword _ | sign _ | doc _ => false

end Token

/-! ## Traversal -/

mutual

/-- The names, literals and operators of an expression from left to right. -/
def Expr.words : Expr → List Token
  | .int n _ => [.int n]
  | .str text _ => [.str text]
  | .bool true _ => [.keyword .true]
  | .bool false _ => [.keyword .false]
  | .none _ => [.keyword .none]
  | .ident x _ => [.ident x]
  | .attr object x _ => object.words ++ [.ident x]
  | .call callee args _ => callee.words ++ Expr.allWords args
  | .binary op left right _ => left.words ++ op.token :: right.words
  | .unary op operand _ => op.token :: operand.words

def Expr.allWords : List Expr → List Token
  | [] => []
  | e :: es => e.words ++ Expr.allWords es

end

/-- The name of a parameter, and the words of its default. -/
def Param.words (p : Param) : List Token :=
  .ident p.name ::
    match p.default with
    | some e => e.words
    | none => []

def Param.allWords : List Param → List Token
  | [] => []
  | p :: ps => p.words ++ Param.allWords ps

mutual

/-- The names, literals and operators of a statement from left to right. -/
def Stmt.words : Stmt → List Token
  | .bind x value _ => .ident x :: value.words
  | .assign target value _ => target.words ++ value.words
  | .function x params body _ _ => .ident x :: (Param.allWords params ++ Stmt.allWords body)
  | .classDef x bases body _ _ => .ident x :: (Expr.allWords bases ++ Stmt.allWords body)
  | .leave (some value) _ => value.words
  | .leave none _ => []
  | .raise value _ => value.words
  | .branch cond whenTrue whenFalse _ => cond.words ++ (Stmt.allWords whenTrue ++ Stmt.allWords whenFalse)
  | .expr value => value.words

def Stmt.allWords : List Stmt → List Token
  | [] => []
  | s :: ss => s.words ++ Stmt.allWords ss

end

/-- The names, literals and operators of a unit from left to right. -/
def CodeUnit.words (u : CodeUnit) : List Token := Stmt.allWords u.body

/-! ## Tokens -/

/-- The tokens that stand for names, literals and operators. -/
def carried (ts : List PlacedToken) : List Token := (ts.map (·.token)).filter Token.carries

section

variable {p : PlacedToken} {ts us : List PlacedToken}

@[simp] theorem carried_nil : carried [] = [] := rfl

@[simp] theorem carried_append : carried (ts ++ us) = carried ts ++ carried us := by
  simp [carried]

/-- A token that stands for a word is one. -/
theorem carried_cons_of {t : Token} (hp : p.token = t) (ht : t.carries = true) :
    carried (p :: ts) = t :: carried ts := by
  unfold carried
  rw [List.map_cons, hp, List.filter_cons_of_pos ht]

/-- A token that only shapes the tree is none. -/
theorem carried_cons_drop {t : Token} (hp : p.token = t) (ht : t.carries = false) :
    carried (p :: ts) = carried ts := by
  unfold carried
  rw [List.map_cons, hp, List.filter_cons_of_neg (by simp [ht])]

end

theorem BinaryOp.carries_token (op : BinaryOp) : op.token.carries = true := by
  cases op <;> rfl

theorem UnaryOp.carries_token (op : UnaryOp) : op.token.carries = true := by
  cases op <;> rfl

/-! ## Words and tokens -/

theorem Expr.words_withSpan (s : Span) (e : Expr) : (e.withSpan s).words = e.words := by
  cases e with
  | bool b => cases b <;> rfl
  | _ => rfl

theorem Expr.words_of_leaf? {p : PlacedToken} {e : Expr} (he : leaf? p = some e) : e.words = carried [p] := by
  refine Expr.leaf?_cases he ?_ ?_ ?_ ?_ ?_ ?_ <;> intros <;> rfl

mutual

theorem Expr.From.words : ∀ {ts : List PlacedToken} {e : Expr}, Expr.From ts e → e.words = carried ts
  | _, _, .leaf he => Expr.words_of_leaf? he
  | _, _, .bracketed ho he hc => by
    rw [Expr.words_withSpan, he.words, carried_cons_drop ho rfl, carried_append, carried_cons_drop hc rfl,
      carried_nil, List.append_nil]
  | _, _, .attr he hd hx => by
    rw [Expr.words, he.words, carried_append, carried_cons_drop hd rfl, carried_cons_of hx rfl, carried_nil]
  | _, _, .call he ho hes hc => by
    rw [Expr.words, he.words, hes.words, carried_append, carried_cons_drop ho rfl, carried_append,
      carried_cons_drop hc rfl, carried_nil, List.append_nil]
  | _, _, @Expr.From.binary _ op _ _ _ _ hl hop hr => by
    rw [Expr.join, Expr.words, hl.words, hr.words, carried_append, carried_cons_of hop op.carries_token]
  | _, _, @Expr.From.unary _ op _ _ hop he => by
    rw [Expr.lead, Expr.words, he.words, carried_cons_of hop op.carries_token]

theorem Expr.AllFrom.words : ∀ {ts : List PlacedToken} {es : List Expr}, Expr.AllFrom ts es →
    Expr.allWords es = carried ts
  | _, _, .nil => rfl
  | _, _, .last he => by rw [Expr.allWords, Expr.allWords, he.words, List.append_nil]
  | _, _, .cons he hc hes => by
    rw [Expr.allWords, he.words, hes.words, carried_append, carried_cons_drop hc rfl]

end

theorem Expr.BasesFrom.words {ts : List PlacedToken} {es : List Expr} (h : Expr.BasesFrom ts es) :
    Expr.allWords es = carried ts := by
  cases h with
  | none => rfl
  | some ho hes hc =>
    rw [hes.words, carried_cons_drop ho rfl, carried_append, carried_cons_drop hc rfl, carried_nil,
      List.append_nil]

theorem Param.From.words {ts : List PlacedToken} {p : Param} (h : Param.From ts p) : p.words = carried ts := by
  cases h with
  | plain hx => rw [carried_cons_of hx rfl]; rfl
  | defaulted hx hequal he =>
    rw [carried_cons_of hx rfl, carried_cons_drop hequal rfl, ← he.words]
    rfl

theorem Param.AllFrom.words {ts : List PlacedToken} {ps : List Param} (h : Param.AllFrom ts ps) :
    Param.allWords ps = carried ts := by
  induction h with
  | nil => rfl
  | last hp => rw [Param.allWords, Param.allWords, hp.words, List.append_nil]
  | cons hp hc _ ih => rw [Param.allWords, hp.words, ih, carried_append, carried_cons_drop hc rfl]

/-- Doc comments stand for no word. -/
theorem DocFrom.carried_eq {ds : List PlacedToken} {doc : Option String} (hd : DocFrom ds doc) :
    carried ds = [] := by
  obtain ⟨lines, hds, -⟩ := hd
  unfold carried
  rw [hds, List.filter_eq_nil_iff]
  intro t ht
  obtain ⟨line, -, rfl⟩ := List.mem_map.1 ht
  exact Bool.false_ne_true

theorem Delimiter.carried_eq {ds : List PlacedToken} (hd : Delimiter ds) : carried ds = [] := by
  obtain rfl | ⟨p, hp, rfl⟩ := hd
  · rfl
  · rw [carried_cons_drop hp rfl, carried_nil]

/-- What comes from tokens has their words. -/
theorem Part.From.words {k : Part} {ts : List PlacedToken} {ss : List Stmt} (hs : Part.From k ts ss) :
    Stmt.allWords ss = carried ts := by
  induction hs with
  | bind hstart hx hequal he =>
    simp only [Stmt.allWords, Stmt.words, List.append_nil]
    rw [he.words, carried_cons_drop hstart rfl, carried_cons_of hx rfl, carried_cons_drop hequal rfl]
  | assign ht htarget hequal hv =>
    simp only [Stmt.allWords, Stmt.words, List.append_nil]
    rw [ht.words, hv.words, carried_append, carried_cons_drop hequal rfl]
  | expr he => simp only [Stmt.allWords, Stmt.words, List.append_nil, he.words]
  | leaveNothing hstart =>
    rw [carried_cons_drop hstart rfl]
    rfl
  | leave hstart he | raise hstart he =>
    simp only [Stmt.allWords, Stmt.words, List.append_nil]
    rw [he.words, carried_cons_drop hstart rfl]
  | branch hstart hc ht hf iht ihf =>
    simp only [Stmt.allWords, Stmt.words, List.append_nil]
    rw [hc.words, iht, ihf, carried_cons_drop hstart rfl, carried_append, carried_append]
  | function doc hstart hx ho hps hlast hc hbody ih =>
    simp only [Stmt.allWords, Stmt.words, List.append_nil]
    rw [hps.words, ih, carried_cons_drop hstart rfl, carried_cons_of hx rfl, carried_cons_drop ho rfl,
      carried_append, carried_cons_drop hc rfl]
  | classDef doc hstart hx hes ho hbody hitems hc ih =>
    simp only [Stmt.allWords, Stmt.words, List.append_nil]
    rw [hes.words, ih, carried_cons_drop hstart rfl, carried_cons_of hx rfl, carried_append,
      carried_cons_drop ho rfl, carried_append, carried_cons_drop hc rfl, carried_nil, List.append_nil]
  | item hd hs he ih =>
    rw [ih, carried_append, carried_append, hd.carried_eq, he.carried_eq, List.append_nil, List.nil_append]
  | nil | noOtherwise => rfl
  | cons hs hss ih ihs =>
    simp only [Stmt.allWords, List.append_nil] at ih
    rw [Stmt.allWords, ih, ihs, carried_append]
  | block ho hss hc ih =>
    rw [ih, carried_cons_drop ho rfl, carried_append, carried_cons_drop hc rfl, carried_nil, List.append_nil]
  | body hss ih => exact ih
  | shortBody hequal he =>
    simp only [Stmt.allWords, Stmt.words, List.append_nil]
    rw [he.words, carried_cons_drop hequal rfl]
  | otherwise hword hss ih => rw [ih, carried_cons_drop hword rfl]
  | chained hword hs hnone ih => rw [ih, carried_cons_drop hword rfl]

/-- The names, literals and operators of a unit that is read from a source text are, from left to right,
the tokens of the text that stand for one. -/
theorem CodeUnit.words_of_parse {source origin : String} {u : CodeUnit} (h : parse source origin = .ok u) :
    ∃ tokens, Token.scan source = .ok tokens ∧ u.words = (tokens.map (·.token)).filter Token.carries := by
  obtain ⟨tokens, hscan, hbody⟩ := from_of_parse h
  exact ⟨tokens, hscan, hbody.words⟩

/-- A function with a default and a short body. -/
theorem CodeUnit.words_of_parse_discount :
    ∃ u, parse "/// Sale\nfn discount(price, by = 1 + rate) = (price - by)" "shop" = .ok u ∧
      u.words = [.ident "discount", .ident "price", .ident "by", .int 1, .sign .plus, .ident "rate",
        .ident "price", .sign .minus, .ident "by"] := by
  have hparse : (parse "/// Sale\nfn discount(price, by = 1 + rate) = (price - by)" "shop").toBool = true := by
    decide +kernel
  obtain ⟨u, hu⟩ := except_ok_of_toBool hparse
  obtain ⟨tokens, hscan, hwords⟩ := words_of_parse hu
  have hcarried : (Token.scan "/// Sale\nfn discount(price, by = 1 + rate) = (price - by)").toOption.map
      (fun tokens => (tokens.map (·.token)).filter Token.carries) =
        some [.ident "discount", .ident "price", .ident "by", .int 1, .sign .plus, .ident "rate",
          .ident "price", .sign .minus, .ident "by"] := by decide +kernel
  rw [hscan] at hcarried
  exact ⟨u, hu, hwords.trans (Option.some.inj hcarried)⟩

end LivePatch
